/-
The cache of column blocks in GPU memory (QueryEngine/GPUMemoryCache.h, GPUMemoryCache.cpp), one for each device, over
the device's `CudaMemAllocator`.

- `cacheMap_`: the entries ordered by key, a std::map;
- `lruQueue_`: a linked list of references to the entries, least recently used first;
- `usedSize_`: the bytes of all entries, an int64_t;
- the allocator, shared with the other users of the device's memory.

As in the model of the allocator an iterator or a reference is the identity of what it points to; using one that points
nowhere is undefined (`none`), a thrown exception is a defined outcome that leaves the state as it is at the throw.

Results:
- `evict_spec` / `getColumn_spec` / `clearCachedBlock_spec`: each call is defined and keeps `Inv`, whether it throws or
  not; what it removes from the cache is said once, by `Removed`.
- `cache_bookkeeping`: after every run the four containers describe the same set of blocks.
-/
import Mathlib.Data.Char
import Mathlib.Data.List.Lex
import Mathlib.Tactic
import QikkDB.Engine.CudaMemAllocator
import QikkDB.Engine.CacheKey

namespace QikkDB.GPUMemoryCache

open NodeList CacheKey Decimal
open CudaMemAllocator (BlockInfo owned)

/-! ## Model -/

/-- a value of `cacheMap_` -/
structure CacheEntry where
  /-- identity of the map's node -/
  entry : ℕ
  key : Text
  ptr : ℕ
  size : ℕ
  /-- node of `lruQueue_` -/
  lruQueueIt : ℕ
deriving DecidableEq, Repr

/-- a node of `lruQueue_`: a `CacheEntryRefWrapper` -/
structure QueueNode where
  /-- identity of the list node -/
  node : ℕ
  /-- the map's node it refers to -/
  ref : ℕ
deriving DecidableEq, Repr

structure St where
  maxSize : ℕ
  /-- in the map's order -/
  cacheMap : List CacheEntry
  lruQueue : List QueueNode
  usedSize : ℤ
  lockList : List Text
  currentBlockIndex : ℕ
  allocator : CudaMemAllocator.St
  /-- identity of the next map node to be created -/
  nextEntry : ℕ
  /-- identity of the next list node to be created -/
  nextNode : ℕ
deriving DecidableEq, Repr

/-- a call's result: a value or the text of the exception, and the state after it -/
abbrev Result (α : Type) := Except String α × St

/-- the constructor, over the device's allocator -/
def construct (maximumSize : ℕ) (allocator : CudaMemAllocator.St) : St :=
  ⟨maximumSize, [], [], 0, [], 0, allocator, 0, 0⟩

/-- conversion to int64_t -/
def toInt64 (z : ℤ) : ℤ := Int.bmod z (2 ^ 64)

/-- `usedSize_` is converted to size_t -/
def hasFreeSpace (s : St) (sizeToInsert : ℕ) : Bool := (s.usedSize + sizeToInsert) % 2 ^ 64 ≤ s.maxSize

/-- `lruQueue_.erase(it)`: a dangling iterator is undefined -/
def eraseQueue (s : St) (it : ℕ) : Option St := do
  let _ ← find QueueNode.node it s.lruQueue
  some { s with lruQueue := erase QueueNode.node it s.lruQueue }

/-- insertion into the map of a key that is not there -/
def insertEntry (e : CacheEntry) : List CacheEntry → List CacheEntry
  | [] => [e]
  | a :: l => if e.key < a.key then e :: a :: l else a :: insertEntry e l

/-- `std::string::find_last_of`: the last position that holds one of the characters, `none` for npos -/
def findLastOf (chars : Text) : Text → Option ℕ
  | [] => none
  | c :: s =>
    match findLastOf chars s with
    | some i => some (i + 1)
    | none => if c ∈ chars then some 0 else none

/-- the test of `Evict` whether a key belongs to a locked column and the current block -/
def isLockedItem (lockList : List Text) (currentBlockIndex : ℕ) (key : Text) : Bool :=
  lockList.any fun lockedColumn =>
    lockedColumn.isPrefixOf key && findLastOf (decimal currentBlockIndex) key == some (lockedColumn.length + 1)

/-- the loop of `Evict` from one node of the queue on -/
def evictFrom (s : St) : List QueueNode → Option (Result Bool)
  | [] => some (.ok false, s)
  | it :: rest => do
    let e ← find CacheEntry.entry it.ref s.cacheMap
    if isLockedItem s.lockList s.currentBlockIndex e.key then evictFrom s rest
    else
      let d ← CudaMemAllocator.deallocate s.allocator e.ptr
      match d with
      | (.error m, a) => some (.error m, { s with allocator := a })
      | (.ok (), a) =>
        let s ← eraseQueue { s with
          allocator := a
          usedSize := toInt64 (s.usedSize - e.size)
          cacheMap := s.cacheMap.filter fun c => c.key ≠ e.key } it.node
        some (.ok true, s)

def evict (s : St) : Option (Result Bool) := evictFrom s s.lruQueue

/-- the condition under which the loop of `GetColumn` ends: `HasFreeSpace && CanAllocate` -/
def hasRoom (s : St) (sizeToInsert : ℕ) : Except String Bool :=
  if hasFreeSpace s sizeToInsert then CudaMemAllocator.canAllocate s.allocator (Int64.ofNat sizeToInsert)
  else .ok false

/-- the loop of `GetColumn` -/
def makeRoom (sizeToInsert : ℕ) : ℕ → St → Option (Result Unit)
  | 0, _ => none
  | fuel + 1, s =>
    match hasRoom s sizeToInsert with
    | .error m => some (.error m, s)
    | .ok true => some (.ok (), s)
    | .ok false => do
      let r ← evict s
      match r with
      | (.error m, s) => some (.error m, s)
      | (.ok false, s) => some (.error "Not enough space left in cache", s)
      | (.ok true, s) => makeRoom sizeToInsert fuel s

/-- the end of `GetColumn`: a new block and its entry at the back of the queue -/
def insertBlock (s : St) (columnBlock : Text) (sizeToInsert : ℕ) : Option (Result ℕ) := do
  let r ← CudaMemAllocator.allocate s.allocator (Int64.ofNat sizeToInsert)
  match r with
  | (.error m, a) => some (.error m, { s with allocator := a })
  | (.ok newPtr, a) =>
    some (.ok newPtr, { s with
      allocator := a
      usedSize := toInt64 (s.usedSize + sizeToInsert)
      cacheMap := insertEntry ⟨s.nextEntry, columnBlock, newPtr, sizeToInsert, s.nextNode⟩ s.cacheMap
      lruQueue := s.lruQueue ++ [⟨s.nextNode, s.nextEntry⟩]
      nextEntry := s.nextEntry + 1
      nextNode := s.nextNode + 1 })

/-- a hit: the entry moves to the back of the queue -/
def touch (s : St) (e : CacheEntry) : Option St := do
  let s ← eraseQueue s e.lruQueueIt
  some { s with
    lruQueue := s.lruQueue ++ [⟨s.nextNode, e.entry⟩]
    cacheMap := update CacheEntry.entry e.entry (fun c => { c with lruQueueIt := s.nextNode }) s.cacheMap
    nextNode := s.nextNode + 1 }

/-- `GetColumn<T>` for a T of `sizeofT` bytes: pointer, number of elements, and whether it was a hit -/
def getColumn (s : St) (sizeofT : ℕ) (databaseName tableAndColumnName : Text) (blockIndex : ℤ) (size : ℕ)
    (loadSize loadOffset : ℤ) : Option (Result (ℕ × ℕ × Bool)) :=
  let key := columnBlock databaseName tableAndColumnName blockIndex loadSize loadOffset
  match s.cacheMap.find? fun c => c.key = key with
  | some e => do
    let s ← touch s e
    some (.ok (e.ptr, e.size / sizeofT, true), s)
  | none =>
    let sizeToInsert := sizeofT * size % 2 ^ 64
    if sizeToInsert > s.maxSize then some (.error "Tried to cache block larger than maximum cache size", s)
    else do
      -- each round of the loop takes one node from the queue
      let r ← makeRoom sizeToInsert (s.lruQueue.length + 1) s
      match r with
      | (.error m, s) => some (.error m, s)
      | (.ok (), s) =>
        let i ← insertBlock s key sizeToInsert
        match i with
        | (.error m, s) => some (.error m, s)
        | (.ok newPtr, s) => some (.ok (newPtr, size, false), s)

/-- `lower_bound`, then a comparison of the beginning of the key -/
def findPrefix (s : St) (searchFor : Text) : Option CacheEntry :=
  match s.cacheMap.find? fun c => searchFor ≤ c.key with
  | some e => if e.key.take searchFor.length = searchFor then some e else none
  | none => none

/-- the loop of `ClearCachedBlock` -/
def clearPrefix (columnBlock : Text) : ℕ → St → Option (Result Unit)
  | 0, _ => none
  | fuel + 1, s =>
    match findPrefix s columnBlock with
    | none => some (.ok (), s)
    | some e => do
      let s ← eraseQueue s e.lruQueueIt
      let d ← CudaMemAllocator.deallocate s.allocator e.ptr
      match d with
      | (.error m, a) => some (.error m, { s with allocator := a })
      | (.ok (), a) =>
        clearPrefix columnBlock fuel { s with
          allocator := a
          usedSize := toInt64 (s.usedSize - e.size)
          cacheMap := erase CacheEntry.entry e.entry s.cacheMap }

def clearCachedBlock (s : St) (databaseName tableAndColumnName : Text) (blockIndex : ℤ) : Option (Result Unit) :=
  clearPrefix (databaseName ++ '.' :: tableAndColumnName ++ '_' :: decimal blockIndex) (s.cacheMap.length + 1) s

inductive Op where
  | getColumn (sizeofT : ℕ) (databaseName tableAndColumnName : Text) (blockIndex : ℤ) (size : ℕ)
      (loadSize loadOffset : ℤ)
  | evict
  | clearCachedBlock (databaseName tableAndColumnName : Text) (blockIndex : ℤ)
  | setLockList (lockList : List Text)
  | setCurrentBlockIndex (blockIndex : ℕ)
  /-- another user of the device's memory -/
  | allocate (numBytes : Int64)
  /-- another user returns a block of its own -/
  | deallocate (ptr : ℕ)

/-- one call, thrown exceptions caught by the caller -/
def step (s : St) : Op → Option St
  | .getColumn t d c b n l o => (getColumn s t d c b n l o).map Prod.snd
  | .evict => (evict s).map Prod.snd
  | .clearCachedBlock d c b => (clearCachedBlock s d c b).map Prod.snd
  | .setLockList l => some { s with lockList := l }
  | .setCurrentBlockIndex b => some { s with currentBlockIndex := b }
  | .allocate n => (CudaMemAllocator.allocate s.allocator n).map fun r => { s with allocator := r.2 }
  | .deallocate p =>
    if p ∈ s.cacheMap.map CacheEntry.ptr then some s
    else (CudaMemAllocator.deallocate s.allocator p).map fun r => { s with allocator := r.2 }

/-! ## The invariant -/

/-- the queue node of an entry -/
def queueNodeOf (e : CacheEntry) : QueueNode := ⟨e.lruQueueIt, e.entry⟩

structure Inv (bufferSize : ℕ) (s : St) : Prop where
  allocator : CudaMemAllocator.Inv bufferSize s.allocator
  small : bufferSize < 2 ^ 63
  usedSize : s.usedSize = ((s.cacheMap.map CacheEntry.size).sum : ℕ)
  bound : s.usedSize ≤ s.maxSize
  sorted : s.cacheMap.Pairwise fun a b => a.key < b.key
  entries : (s.cacheMap.map CacheEntry.entry).Nodup
  /-- exactly the entries, each once, linked both ways -/
  queue : s.lruQueue.Perm (s.cacheMap.map queueNodeOf)
  nodes : (s.lruQueue.map QueueNode.node).Nodup
  ptrs : (s.cacheMap.map CacheEntry.ptr).Nodup
  /-- each entry is held by an allocated block of its own -/
  blocks : ∀ e ∈ s.cacheMap, ∃ b ∈ owned s.allocator.chainedBlocks, b.ptr = e.ptr ∧ e.size ≤ b.blockSize
  freshEntry : ∀ e ∈ s.cacheMap, e.entry < s.nextEntry
  freshNode : ∀ q ∈ s.lruQueue, q.node < s.nextNode

/-! ## The containers -/

theorem insertEntry_perm (e : CacheEntry) (l : List CacheEntry) : (insertEntry e l).Perm (e :: l) := by
  induction l with
  | nil => exact List.Perm.refl _
  | cons a l ih =>
    simp only [insertEntry]
    split_ifs
    · exact List.Perm.refl _
    · exact (ih.cons a).trans (List.Perm.swap e a l)

theorem insertEntry_sorted (e : CacheEntry) (l : List CacheEntry) (h : l.Pairwise fun a b => a.key < b.key)
    (hne : ∀ a ∈ l, a.key ≠ e.key) : (insertEntry e l).Pairwise fun a b => a.key < b.key := by
  induction l with
  | nil => simp [insertEntry]
  | cons a l ih =>
    obtain ⟨ha, hl⟩ := List.pairwise_cons.1 h
    simp only [insertEntry]
    split_ifs with hlt
    · refine List.pairwise_cons.2 ⟨?_, h⟩
      intro c hc
      rcases List.mem_cons.1 hc with rfl | hc
      · exact hlt
      · exact hlt.trans (ha c hc)
    · refine List.pairwise_cons.2 ⟨?_, ih hl fun c hc => hne c (List.mem_cons_of_mem a hc)⟩
      intro c hc
      rcases List.mem_cons.1 ((insertEntry_perm e l).mem_iff.1 hc) with rfl | hc
      · exact lt_of_le_of_ne (not_lt.1 hlt) (hne a List.mem_cons_self)
      · exact ha c hc

/-- an ordered map has one entry with a given key -/
theorem filter_key {pre post : List CacheEntry} {e : CacheEntry}
    (h : (pre ++ e :: post).Pairwise fun a b => a.key < b.key) :
    ((pre ++ e :: post).filter fun c => c.key ≠ e.key) = pre ++ post := by
  obtain ⟨_, hpost, hpre⟩ := List.pairwise_append.1 h
  have hleft : pre.filter (fun c => c.key ≠ e.key) = pre :=
    List.filter_eq_self.2 fun c hc => by simpa using (hpre c hc e List.mem_cons_self).ne
  have hright : post.filter (fun c => c.key ≠ e.key) = post :=
    List.filter_eq_self.2 fun c hc => by simpa using ((List.pairwise_cons.1 hpost).1 c hc).ne'
  simp only [List.filter_append, List.filter_cons, hleft, hright]
  simp

theorem toInt64_of_lt {z : ℤ} (hz : 0 ≤ z) (hlt : z < 2 ^ 63) : toInt64 z = z := by
  unfold toInt64
  rw [Int.bmod_eq_of_le] <;> omega

/-! ## Removing an entry -/

section Step

variable {bufferSize : ℕ} {s : St}

/-- the bytes in use fit into the buffer, so the counter does not overflow -/
theorem Inv.usedSize_lt (h : Inv bufferSize s) : 0 ≤ s.usedSize ∧ s.usedSize < 2 ^ 63 := by
  have hsum : (s.cacheMap.map CacheEntry.size).sum ≤ ((owned s.allocator.chainedBlocks).map BlockInfo.blockSize).sum :=
    sum_le_sum_of_key CacheEntry.ptr BlockInfo.ptr h.ptrs h.blocks
  have := CudaMemAllocator.owned_sum h.allocator
  have := h.usedSize
  have := h.small
  omega

theorem Inv.queue_split (h : Inv bufferSize s) {pre post : List CacheEntry} {e : CacheEntry}
    (hsplit : s.cacheMap = pre ++ e :: post) :
    s.lruQueue.Perm (pre.map queueNodeOf ++ queueNodeOf e :: post.map queueNodeOf) := by
  simpa [hsplit] using h.queue

theorem Inv.find_queue (h : Inv bufferSize s) {pre post : List CacheEntry} {e : CacheEntry}
    (hsplit : s.cacheMap = pre ++ e :: post) :
    find QueueNode.node e.lruQueueIt s.lruQueue = some (queueNodeOf e) :=
  find_perm (h.queue_split hsplit) h.nodes

/-- the allocator takes the block of an entry back -/
theorem Inv.deallocate (h : Inv bufferSize s) {e : CacheEntry} (he : e ∈ s.cacheMap) :
    ∃ a b, CudaMemAllocator.deallocate s.allocator e.ptr = some (.ok (), a) ∧ CudaMemAllocator.Inv bufferSize a ∧
      BlockInfo.ptr b = e.ptr ∧ (owned s.allocator.chainedBlocks).Perm (b :: owned a.chainedBlocks) := by
  obtain ⟨r, a, hd, ha, ⟨-, hnone⟩ | ⟨rfl, b, hb, hperm⟩⟩ := CudaMemAllocator.deallocate_spec h.allocator e.ptr
  · obtain ⟨b, hb, hptr, -⟩ := h.blocks e he
    exact absurd hptr (hnone b hb)
  · exact ⟨a, b, hd, ha, hb, hperm⟩

/-- an entry goes together with its queue node, its bytes and its block -/
theorem Inv.remove (h : Inv bufferSize s) {pre post : List CacheEntry} {e : CacheEntry} {b : BlockInfo}
    {a : CudaMemAllocator.St} (hsplit : s.cacheMap = pre ++ e :: post) (ha : CudaMemAllocator.Inv bufferSize a)
    (hb : b.ptr = e.ptr) (hown : (owned s.allocator.chainedBlocks).Perm (b :: owned a.chainedBlocks)) :
    Inv bufferSize { s with
      allocator := a
      usedSize := toInt64 (s.usedSize - e.size)
      cacheMap := pre ++ post
      lruQueue := erase QueueNode.node e.lruQueueIt s.lruQueue } := by
  have hsub : (pre ++ post).Sublist s.cacheMap := by
    rw [hsplit]
    exact List.Sublist.append (List.Sublist.refl _) (List.sublist_cons_self _ _)
  have hsum : s.usedSize = ((pre ++ post).map CacheEntry.size).sum + e.size := by
    rw [h.usedSize, hsplit]
    simp only [List.map_append, List.map_cons, List.sum_append, List.sum_cons]
    push_cast
    ring
  have hlt := h.usedSize_lt
  have hused : toInt64 (s.usedSize - e.size) = ((pre ++ post).map CacheEntry.size).sum := by
    rw [toInt64_of_lt] <;> omega
  have hbound := h.bound
  refine ⟨ha, h.small, hused, ?_, h.sorted.sublist hsub, h.entries.sublist (hsub.map _), ?_,
    h.nodes.sublist (List.filter_sublist.map _), h.ptrs.sublist (hsub.map _), ?_, ?_, ?_⟩
  · simp only [hused]
    omega
  · rw [List.map_append]
    exact erase_perm (h.queue_split hsplit) h.nodes
  · intro c hc
    obtain ⟨b', hb', hptr, hsize⟩ := h.blocks c (hsub.subset hc)
    rcases List.mem_cons.1 (hown.mem_iff.1 hb') with rfl | hb'
    · -- the block of another entry starts elsewhere
      have hne := notMem_of_nodup (hsplit ▸ h.ptrs)
      rcases List.mem_append.1 hc with hc | hc
      · exact absurd (hptr.symm.trans hb) (hne.1 c hc)
      · exact absurd (hptr.symm.trans hb) (hne.2 c hc)
    · exact ⟨b', hb', hptr, hsize⟩
  · exact fun c hc => h.freshEntry c (hsub.subset hc)
  · exact fun q hq => h.freshNode q (List.mem_of_mem_filter hq)

/-! ## Evict -/

/-- one entry that is not locked is gone, everything else is as before -/
structure Evicted (s s' : St) : Prop where
  maxSize : s'.maxSize = s.maxSize
  lockList : s'.lockList = s.lockList
  currentBlockIndex : s'.currentBlockIndex = s.currentBlockIndex
  removed : ∃ pre e post, s.cacheMap = pre ++ e :: post ∧ s'.cacheMap = pre ++ post ∧
    isLockedItem s.lockList s.currentBlockIndex e.key = false

/-- the locks of the entry a queue node refers to -/
def lockedNode (s : St) (q : QueueNode) : Prop :=
  ∃ e ∈ s.cacheMap, queueNodeOf e = q ∧ isLockedItem s.lockList s.currentBlockIndex e.key = true

theorem evictFrom_spec (h : Inv bufferSize s) (l : List QueueNode) (hl : ∀ q ∈ l, q ∈ s.lruQueue) :
    ∃ r s', evictFrom s l = some (r, s') ∧ Inv bufferSize s' ∧
      (r = .ok false ∧ s' = s ∧ (∀ q ∈ l, lockedNode s q) ∨ r = .ok true ∧ Evicted s s') := by
  induction l with
  | nil => exact ⟨.ok false, s, rfl, h, Or.inl ⟨rfl, rfl, by simp⟩⟩
  | cons it rest ih =>
    obtain ⟨e, he, hit⟩ := List.mem_map.1 (h.queue.mem_iff.1 (hl it List.mem_cons_self))
    obtain ⟨pre, post, hsplit⟩ := List.append_of_mem he
    have hfind : find CacheEntry.entry it.ref s.cacheMap = some e := by
      rw [← hit, hsplit]
      exact find_split (hsplit ▸ h.entries)
    by_cases hlock : isLockedItem s.lockList s.currentBlockIndex e.key = true
    · obtain ⟨r, s', heq, hinv, hcase⟩ := ih fun q hq => hl q (List.mem_cons_of_mem it hq)
      refine ⟨r, s', by simp [evictFrom, hfind, hlock, heq], hinv, ?_⟩
      rcases hcase with ⟨hr, hs, hall⟩ | hcase
      · refine Or.inl ⟨hr, hs, ?_⟩
        intro q hq
        rcases List.mem_cons.1 hq with rfl | hq
        · exact ⟨e, he, hit, hlock⟩
        · exact hall q hq
      · exact Or.inr hcase
    · obtain ⟨a, b, hd, ha, hb, hown⟩ := h.deallocate he
      have hinv := h.remove hsplit ha hb hown
      have hmap : (s.cacheMap.filter fun c => c.key ≠ e.key) = pre ++ post := by
        rw [hsplit]
        exact filter_key (hsplit ▸ h.sorted)
      have hqueue : find QueueNode.node it.node s.lruQueue = some (queueNodeOf e) := by
        rw [← hit]
        exact h.find_queue hsplit
      rw [← hmap, show e.lruQueueIt = it.node by rw [← hit]; rfl] at hinv
      refine ⟨.ok true, _, ?_, hinv, Or.inr ⟨rfl, rfl, rfl, rfl, pre, e, post, hsplit, hmap, by simpa using hlock⟩⟩
      simp [evictFrom, hfind, hlock, hd, eraseQueue, hqueue]

/-- `Evict` is defined and keeps the invariant; it removes one entry that is not locked, or every entry is locked. -/
theorem evict_spec (h : Inv bufferSize s) :
    ∃ r s', evict s = some (r, s') ∧ Inv bufferSize s' ∧
      (r = .ok false ∧ s' = s ∧ (∀ e ∈ s.cacheMap, isLockedItem s.lockList s.currentBlockIndex e.key = true) ∨
        r = .ok true ∧ Evicted s s') := by
  obtain ⟨r, s', heq, hinv, ⟨hr, hs, hall⟩ | hcase⟩ := evictFrom_spec h s.lruQueue fun q hq => hq
  · refine ⟨r, s', heq, hinv, Or.inl ⟨hr, hs, ?_⟩⟩
    intro e he
    obtain ⟨c, hc, hq, hlock⟩ := hall _ (h.queue.mem_iff.2 (List.mem_map_of_mem he))
    have : c = e := List.inj_on_of_nodup_map h.entries hc he (congrArg QueueNode.ref hq)
    exact this ▸ hlock
  · exact ⟨r, s', heq, hinv, Or.inr hcase⟩

/-! ## GetColumn -/

/-- a state after any number of evictions -/
abbrev Shrunk : St → St → Prop := Relation.ReflTransGen Evicted

theorem Shrunk.settings {s s' : St} (h : Shrunk s s') :
    s'.maxSize = s.maxSize ∧ s'.lockList = s.lockList ∧ s'.currentBlockIndex = s.currentBlockIndex := by
  induction h with
  | refl => exact ⟨rfl, rfl, rfl⟩
  | tail _ h ih => exact ⟨h.maxSize.trans ih.1, h.lockList.trans ih.2.1, h.currentBlockIndex.trans ih.2.2⟩

theorem Shrunk.sublist {s s' : St} (h : Shrunk s s') : s'.cacheMap.Sublist s.cacheMap := by
  induction h with
  | refl => exact List.Sublist.refl _
  | tail _ h ih =>
    obtain ⟨pre, e, post, hsplit, hmap, -⟩ := h.removed
    rw [hmap]
    refine List.Sublist.trans ?_ ih
    rw [hsplit]
    exact List.Sublist.append (List.Sublist.refl _) (List.sublist_cons_self _ _)

theorem Shrunk.locked {s s' : St} (h : Shrunk s s') {e : CacheEntry} (he : e ∈ s.cacheMap)
    (hlock : isLockedItem s.lockList s.currentBlockIndex e.key = true) : e ∈ s'.cacheMap := by
  induction h with
  | refl => exact he
  | tail hs h ih =>
    obtain ⟨-, hl, hb⟩ := Shrunk.settings hs
    obtain ⟨pre, c, post, hsplit, hmap, hfree⟩ := h.removed
    rw [hl, hb] at hfree
    rw [hsplit] at ih
    rw [hmap]
    rcases List.mem_append.1 ih with ih | ih
    · exact List.mem_append_left _ ih
    · rcases List.mem_cons.1 ih with rfl | ih
      · simp [hlock] at hfree
      · exact List.mem_append_right _ ih

theorem makeRoom_spec (h : Inv bufferSize s) (n fuel : ℕ) (hfuel : s.cacheMap.length < fuel) :
    ∃ r s', makeRoom n fuel s = some (r, s') ∧ Inv bufferSize s' ∧ Shrunk s s' ∧
      (r = .ok () → hasRoom s' n = .ok true) := by
  induction fuel generalizing s with
  | zero => omega
  | succ fuel ih =>
    match hroom : hasRoom s n with
    | .error m => exact ⟨.error m, s, by simp [makeRoom, hroom], h, .refl, by simp⟩
    | .ok true => exact ⟨.ok (), s, by simp [makeRoom, hroom], h, .refl, fun _ => hroom⟩
    | .ok false =>
      obtain ⟨r, s', heq, hinv, ⟨rfl, rfl, -⟩ | ⟨rfl, hev⟩⟩ := evict_spec h
      · exact ⟨.error "Not enough space left in cache", s', by simp [makeRoom, hroom, heq], hinv, .refl, by simp⟩
      · obtain ⟨pre, e, post, hsplit, hmap, -⟩ := hev.removed
        have hlen : s'.cacheMap.length < fuel := by
          rw [hsplit] at hfuel
          rw [hmap]
          simp only [List.length_append, List.length_cons] at hfuel ⊢
          omega
        obtain ⟨r, s'', heq', hinv', hshr, hok⟩ := ih hinv hlen
        exact ⟨r, s'', by simp [makeRoom, hroom, heq, heq'], hinv', .head hev hshr, hok⟩

/-- where the loop of `GetColumn` ends, neither the sum in `HasFreeSpace` nor the conversion to ptrdiff_t has wrapped -/
theorem room_of_hasRoom (h : Inv bufferSize s) {n : ℕ} (hn : n < 2 ^ 64) (hroom : hasRoom s n = .ok true) :
    (Int64.ofNat n).toInt = n ∧ s.usedSize + n ≤ s.maxSize ∧
      CudaMemAllocator.canAllocate s.allocator (Int64.ofNat n) = .ok true := by
  unfold hasRoom at hroom
  split_ifs at hroom with hfree
  swap
  · simp at hroom
  have hconv : (Int64.ofNat n).toInt = (n : ℤ).bmod (2 ^ 64) := by simp
  have hpos : 0 < (Int64.ofNat n).toInt := by
    simp only [CudaMemAllocator.canAllocate] at hroom
    split_ifs at hroom with hneg
    omega
  have hval : (n : ℤ).bmod (2 ^ 64) = n ∧ n < 2 ^ 63 := by
    rw [hconv, Int.bmod_def] at hpos
    rw [Int.bmod_def]
    split_ifs at hpos ⊢ <;> omega
  have hused := h.usedSize_lt
  simp only [hasFreeSpace, decide_eq_true_eq] at hfree
  refine ⟨hconv.trans hval.1, ?_, hroom⟩
  omega

theorem insertBlock_spec (h : Inv bufferSize s) {n : ℕ} (hn : n < 2 ^ 64) (hroom : hasRoom s n = .ok true) (key : Text)
    (hkey : ∀ e ∈ s.cacheMap, e.key ≠ key) :
    ∃ p s', insertBlock s key n = some (.ok p, s') ∧ Inv bufferSize s' ∧
      s'.cacheMap.Perm (⟨s.nextEntry, key, p, n, s.nextNode⟩ :: s.cacheMap) := by
  obtain ⟨hconv, hle, hcan⟩ := room_of_hasRoom h hn hroom
  obtain ⟨r, a, heq, ha, hhand⟩ := CudaMemAllocator.allocate_spec h.allocator (Int64.ofNat n)
  obtain ⟨p, rfl⟩ := CudaMemAllocator.allocate_of_canAllocate hcan heq
  obtain ⟨b, rfl, hsize, hown⟩ := hhand
  rw [hconv] at hsize
  set e : CacheEntry := ⟨s.nextEntry, key, b.ptr, n, s.nextNode⟩ with he
  have hperm := insertEntry_perm e s.cacheMap
  -- the new block starts where no block of the cache starts
  have hptrs : ((e :: s.cacheMap).map CacheEntry.ptr).Nodup := by
    have hnodup := CudaMemAllocator.owned_nodup ha
    rw [(hown.map BlockInfo.ptr).nodup_iff, List.map_cons, List.nodup_cons] at hnodup
    refine List.nodup_cons.2 ⟨?_, h.ptrs⟩
    intro hmem
    obtain ⟨c, hc, hptr⟩ := List.mem_map.1 hmem
    obtain ⟨b', hb', hptr', -⟩ := h.blocks c hc
    exact hnodup.1 (List.mem_map.2 ⟨b', hb', hptr'.trans hptr⟩)
  have hblocks : ∀ c ∈ e :: s.cacheMap, ∃ b ∈ owned a.chainedBlocks, b.ptr = c.ptr ∧ c.size ≤ b.blockSize := by
    intro c hc
    rcases List.mem_cons.1 hc with rfl | hc
    · exact ⟨b, hown.mem_iff.2 List.mem_cons_self, rfl, by exact_mod_cast hsize⟩
    · obtain ⟨b', hb', hrest⟩ := h.blocks c hc
      exact ⟨b', hown.mem_iff.2 (List.mem_cons_of_mem b hb'), hrest⟩
  have hfits : ((e :: s.cacheMap).map CacheEntry.size).sum ≤ bufferSize :=
    (sum_le_sum_of_key CacheEntry.ptr BlockInfo.ptr hptrs hblocks).trans (CudaMemAllocator.owned_sum ha)
  have hsum : ((e :: s.cacheMap).map CacheEntry.size).sum = s.usedSize + n := by
    rw [h.usedSize, List.map_cons, List.sum_cons]
    push_cast
    exact Int.add_comm _ _
  have hused : toInt64 (s.usedSize + n) = ((e :: s.cacheMap).map CacheEntry.size).sum := by
    have := h.small
    rw [← hsum, toInt64_of_lt] <;> omega
  refine ⟨b.ptr, _, by simp only [insertBlock, heq, Option.bind_eq_bind, Option.bind_some]; rfl, ?_, hperm⟩
  refine ⟨ha, h.small, ?_, ?_, ?_, ?_, ?_, ?_, ?_, ?_, ?_, ?_⟩
  · rw [hused, (hperm.map CacheEntry.size).sum_eq]
  · simp only [hused, hsum]
    exact hle
  · exact insertEntry_sorted e s.cacheMap h.sorted hkey
  · rw [(hperm.map CacheEntry.entry).nodup_iff]
    refine List.nodup_cons.2 ⟨?_, h.entries⟩
    intro hmem
    obtain ⟨c, hc, heq⟩ := List.mem_map.1 hmem
    exact absurd heq (h.freshEntry c hc).ne
  · refine List.Perm.trans ?_ (hperm.map queueNodeOf).symm
    exact (List.perm_append_singleton _ _).trans (h.queue.cons _)
  · rw [List.map_append, List.nodup_append]
    refine ⟨h.nodes, by simp, ?_⟩
    intro i hi j hj
    obtain ⟨q, hq, rfl⟩ := List.mem_map.1 hi
    obtain rfl : j = s.nextNode := by simpa using hj
    exact (h.freshNode q hq).ne
  · rw [(hperm.map CacheEntry.ptr).nodup_iff]
    exact hptrs
  · exact fun c hc => hblocks c (hperm.mem_iff.1 hc)
  · intro c hc
    rcases List.mem_cons.1 (hperm.mem_iff.1 hc) with rfl | hc
    · exact Nat.lt_succ_self _
    · exact Nat.lt_succ_of_lt (h.freshEntry c hc)
  · intro q hq
    rcases List.mem_append.1 hq with hq | hq
    · exact Nat.lt_succ_of_lt (h.freshNode q hq)
    · obtain rfl : q = ⟨s.nextNode, s.nextEntry⟩ := by simpa using hq
      exact Nat.lt_succ_self _

/-- a hit changes the node of one entry and nothing else of the map -/
theorem touch_spec (h : Inv bufferSize s) {pre post : List CacheEntry} {e : CacheEntry}
    (hsplit : s.cacheMap = pre ++ e :: post) :
    ∃ s', touch s e = some s' ∧ Inv bufferSize s' ∧
      s'.cacheMap = pre ++ { e with lruQueueIt := s.nextNode } :: post := by
  have hmap : update CacheEntry.entry e.entry (fun c => { c with lruQueueIt := s.nextNode }) s.cacheMap =
      pre ++ { e with lruQueueIt := s.nextNode } :: post := by
    rw [hsplit]
    exact update_split _ (hsplit ▸ h.entries)
  have hkeep : ∀ {β : Type} (f : CacheEntry → β), (∀ c i, f { c with lruQueueIt := i } = f c) →
      (pre ++ { e with lruQueueIt := s.nextNode } :: post).map f = s.cacheMap.map f := by
    intro β f hf
    simp [hsplit, hf]
  have htouch : touch s e = some { s with
      lruQueue := erase QueueNode.node e.lruQueueIt s.lruQueue ++ [⟨s.nextNode, e.entry⟩]
      cacheMap := pre ++ { e with lruQueueIt := s.nextNode } :: post
      nextNode := s.nextNode + 1 } := by
    simp [touch, eraseQueue, h.find_queue hsplit, hmap]
  refine ⟨_, htouch, ⟨h.allocator, h.small, ?_, h.bound, ?_, ?_, ?_, ?_, ?_, ?_, ?_, ?_⟩, rfl⟩
  · rw [h.usedSize, hkeep CacheEntry.size fun _ _ => rfl]
  · have hkeys := List.pairwise_map.2 h.sorted
    rw [← hkeep CacheEntry.key fun _ _ => rfl] at hkeys
    exact List.pairwise_map.1 hkeys
  · rw [hkeep CacheEntry.entry fun _ _ => rfl]
    exact h.entries
  · refine (List.perm_append_singleton _ _).trans ?_
    simp only [List.map_append, List.map_cons]
    exact ((erase_perm (h.queue_split hsplit) h.nodes).cons _).trans List.perm_middle.symm
  · rw [List.map_append, List.nodup_append]
    refine ⟨h.nodes.sublist (List.filter_sublist.map _), by simp, ?_⟩
    intro i hi j hj
    obtain ⟨q, hq, rfl⟩ := List.mem_map.1 hi
    obtain rfl : j = s.nextNode := by simpa using hj
    exact (h.freshNode q (List.mem_of_mem_filter hq)).ne
  · rw [hkeep CacheEntry.ptr fun _ _ => rfl]
    exact h.ptrs
  · intro c hc
    simp only [List.mem_append, List.mem_cons] at hc
    rcases hc with hc | rfl | hc
    · exact h.blocks c (by simp [hsplit, hc])
    · exact h.blocks e (by simp [hsplit])
    · exact h.blocks c (by simp [hsplit, hc])
  · intro c hc
    simp only [List.mem_append, List.mem_cons] at hc
    rcases hc with hc | rfl | hc
    · exact h.freshEntry c (by simp [hsplit, hc])
    · exact h.freshEntry e (by simp [hsplit])
    · exact h.freshEntry c (by simp [hsplit, hc])
  · intro q hq
    rcases List.mem_append.1 hq with hq | hq
    · exact Nat.lt_succ_of_lt (h.freshNode q (List.mem_of_mem_filter hq))
    · obtain rfl : q = ⟨s.nextNode, e.entry⟩ := by simpa using hq
      exact Nat.lt_succ_self _

/-- what a call of `GetColumn` for `key` leaves and returns -/
structure Got (s : St) (key : Text) (s' : St) (r : Except String (ℕ × ℕ × Bool)) : Prop where
  /-- locked entries stay with their blocks -/
  keeps : ∀ e ∈ s.cacheMap, isLockedItem s.lockList s.currentBlockIndex e.key = true →
    ∃ e' ∈ s'.cacheMap, e'.key = e.key ∧ e'.ptr = e.ptr
  /-- the pointer returned is that of the key's entry -/
  entry : ∀ p n hit, r = .ok (p, n, hit) → ∃ e ∈ s'.cacheMap, e.key = key ∧ e.ptr = p
  /-- a hit returns what was cached -/
  cached : ∀ p n, r = .ok (p, n, true) → ∃ e ∈ s.cacheMap, e.key = key ∧ e.ptr = p

theorem hit_spec (h : Inv bufferSize s) {e : CacheEntry} (he : e ∈ s.cacheMap) (n : ℕ) :
    ∃ s', touch s e = some s' ∧ Inv bufferSize s' ∧ Got s e.key s' (.ok (e.ptr, n, true)) := by
  obtain ⟨pre, post, hsplit⟩ := List.append_of_mem he
  obtain ⟨s', heq, hinv, hmap⟩ := touch_spec h hsplit
  have hkeep : ∀ c ∈ s.cacheMap, ∃ c' ∈ s'.cacheMap, c'.key = c.key ∧ c'.ptr = c.ptr := by
    intro c hc
    rw [hsplit] at hc
    rw [hmap]
    rcases List.mem_append.1 hc with hc | hc
    · exact ⟨c, by simp [hc], rfl, rfl⟩
    · rcases List.mem_cons.1 hc with rfl | hc
      · exact ⟨{ c with lruQueueIt := s.nextNode }, by simp, rfl, rfl⟩
      · exact ⟨c, by simp [hc], rfl, rfl⟩
  refine ⟨s', heq, hinv, fun c hc _ => hkeep c hc, ?_, ?_⟩
  · intro p m hit hr
    obtain ⟨rfl, -, -⟩ : e.ptr = p ∧ n = m ∧ true = hit := by simpa using hr
    exact hkeep e he
  · intro p m hr
    obtain ⟨rfl, -⟩ : e.ptr = p ∧ n = m := by simpa using hr
    exact ⟨e, he, rfl, rfl⟩

/-- `GetColumn` is defined and keeps the invariant, whether it throws, hits, or evicts and inserts. -/
theorem getColumn_spec (h : Inv bufferSize s) (sizeofT : ℕ) (databaseName tableAndColumnName : Text) (blockIndex : ℤ)
    (size : ℕ) (loadSize loadOffset : ℤ) :
    ∃ r s', getColumn s sizeofT databaseName tableAndColumnName blockIndex size loadSize loadOffset = some (r, s') ∧
      Inv bufferSize s' ∧
      Got s (columnBlock databaseName tableAndColumnName blockIndex loadSize loadOffset) s' r := by
  set key := columnBlock databaseName tableAndColumnName blockIndex loadSize loadOffset with hkey
  set n := sizeofT * size % 2 ^ 64 with hn
  cases hfind : s.cacheMap.find? fun c => c.key = key with
  | some e =>
    have hek : e.key = key := by simpa using List.find?_some hfind
    obtain ⟨s', heq, hinv, hgot⟩ := hit_spec h (List.mem_of_find?_eq_some hfind) (e.size / sizeofT)
    rw [hek] at hgot
    exact ⟨_, s', by simp [getColumn, ← hkey, hfind, heq], hinv, hgot⟩
  | none =>
    by_cases hmax : n > s.maxSize
    · exact ⟨.error "Tried to cache block larger than maximum cache size", s,
        by simp only [getColumn, ← hkey, hfind, ← hn, if_pos hmax], h, fun c hc _ => ⟨c, hc, rfl, rfl⟩, by simp, by simp⟩
    have hlen : s.cacheMap.length < s.lruQueue.length + 1 := by
      have := h.queue.length_eq
      simp only [List.length_map] at this
      omega
    obtain ⟨r, s₁, hmake, h₁, hshr, hroom⟩ := makeRoom_spec h n (s.lruQueue.length + 1) hlen
    match r with
    | .error m =>
      exact ⟨.error m, s₁, by simp only [getColumn, ← hkey, hfind, ← hn, if_neg hmax, hmake]; rfl, h₁,
        fun c hc hl => ⟨c, hshr.locked hc hl, rfl, rfl⟩, by simp, by simp⟩
    | .ok () =>
      have hmiss : ∀ e ∈ s₁.cacheMap, e.key ≠ key := by
        intro e he
        simpa using List.find?_eq_none.1 hfind e (hshr.sublist.subset he)
      obtain ⟨p, s₂, hins, h₂, hperm⟩ := insertBlock_spec h₁ (Nat.mod_lt _ (by norm_num)) (hroom rfl) key hmiss
      have hget : getColumn s sizeofT databaseName tableAndColumnName blockIndex size loadSize loadOffset =
          some (.ok (p, size, false), s₂) := by
        simp only [getColumn, ← hkey, hfind, ← hn, if_neg hmax, hmake, Option.bind_eq_bind, Option.bind_some] at hins ⊢
        rw [hins, Option.bind_some]
      refine ⟨.ok (p, size, false), s₂, hget, h₂, ?_, ?_, by simp⟩
      · exact fun c hc hl => ⟨c, hperm.mem_iff.2 (List.mem_cons_of_mem _ (hshr.locked hc hl)), rfl, rfl⟩
      · intro q m hit hr
        obtain ⟨rfl, -, -⟩ : p = q ∧ size = m ∧ false = hit := by simpa using hr
        exact ⟨_, hperm.mem_iff.2 List.mem_cons_self, rfl, rfl⟩

/-! ## ClearCachedBlock -/

theorem clearPrefix_spec (h : Inv bufferSize s) (key : Text) (fuel : ℕ) (hfuel : s.cacheMap.length < fuel) :
    ∃ s', clearPrefix key fuel s = some (.ok (), s') ∧ Inv bufferSize s' ∧ findPrefix s' key = none := by
  induction fuel generalizing s with
  | zero => omega
  | succ fuel ih =>
    cases hfind : findPrefix s key with
    | none => exact ⟨s, by simp [clearPrefix, hfind], h, hfind⟩
    | some e =>
      have he : e ∈ s.cacheMap := by
        simp only [findPrefix] at hfind
        split at hfind
        · split_ifs at hfind
          · obtain rfl := Option.some.inj hfind
            exact List.mem_of_find?_eq_some ‹_›
        · cases hfind
      obtain ⟨pre, post, hsplit⟩ := List.append_of_mem he
      obtain ⟨a, b, hd, ha, hb, hown⟩ := h.deallocate he
      have hmap : erase CacheEntry.entry e.entry s.cacheMap = pre ++ post := by
        rw [hsplit]
        exact erase_split (hsplit ▸ h.entries)
      have hlen : (pre ++ post).length < fuel := by
        rw [hsplit] at hfuel
        simp only [List.length_append, List.length_cons] at hfuel ⊢
        omega
      obtain ⟨s', heq, hinv, hnone⟩ := ih (h.remove hsplit ha hb hown) hlen
      exact ⟨s', by simpa [clearPrefix, hfind, eraseQueue, h.find_queue hsplit, hd, hmap] using heq, hinv, hnone⟩

theorem clearCachedBlock_spec (h : Inv bufferSize s) (databaseName tableAndColumnName : Text) (blockIndex : ℤ) :
    ∃ s', clearCachedBlock s databaseName tableAndColumnName blockIndex = some (.ok (), s') ∧ Inv bufferSize s' ∧
      findPrefix s' (databaseName ++ '.' :: tableAndColumnName ++ '_' :: decimal blockIndex) = none :=
  clearPrefix_spec h _ _ (Nat.lt_succ_self _)

/-! ## Whole runs -/

/-- the other users of the allocator leave the cache's blocks alone -/
theorem Inv.withAllocator (h : Inv bufferSize s) {a : CudaMemAllocator.St} (ha : CudaMemAllocator.Inv bufferSize a)
    (hown : ∀ e ∈ s.cacheMap, ∀ b ∈ owned s.allocator.chainedBlocks, b.ptr = e.ptr → b ∈ owned a.chainedBlocks) :
    Inv bufferSize { s with allocator := a } := by
  refine { h with allocator := ha, blocks := ?_ }
  intro e he
  obtain ⟨b, hb, hptr, hsize⟩ := h.blocks e he
  exact ⟨b, hown e he b hb hptr, hptr, hsize⟩

theorem step_inv (s : St) (o : Op) (h : Inv bufferSize s) : ∃ s', step s o = some s' ∧ Inv bufferSize s' := by
  cases o with
  | getColumn t d c b n l o =>
    obtain ⟨r, s', heq, hinv, -⟩ := getColumn_spec h t d c b n l o
    exact ⟨s', by simp [step, heq], hinv⟩
  | evict =>
    obtain ⟨r, s', heq, hinv, -⟩ := evict_spec h
    exact ⟨s', by simp [step, heq], hinv⟩
  | clearCachedBlock d c b =>
    obtain ⟨s', heq, hinv, -⟩ := clearCachedBlock_spec h d c b
    exact ⟨s', by simp [step, heq], hinv⟩
  | setLockList l => exact ⟨_, rfl, { h with }⟩
  | setCurrentBlockIndex b => exact ⟨_, rfl, { h with }⟩
  | allocate n =>
    obtain ⟨r, a, heq, ha, hhand⟩ := CudaMemAllocator.allocate_spec h.allocator n
    refine ⟨{ s with allocator := a }, by simp [step, heq], h.withAllocator ha ?_⟩
    intro e _ b hb _
    cases r with
    | error m =>
      obtain rfl : a = s.allocator := hhand
      exact hb
    | ok p =>
      obtain ⟨b', _, _, hperm⟩ := hhand
      exact hperm.mem_iff.2 (List.mem_cons_of_mem b' hb)
  | deallocate p =>
    by_cases hp : p ∈ s.cacheMap.map CacheEntry.ptr
    · exact ⟨s, by simp only [step, if_pos hp], h⟩
    obtain ⟨r, a, heq, ha, hcase⟩ := CudaMemAllocator.deallocate_spec h.allocator p
    refine ⟨{ s with allocator := a }, by simp only [step, if_neg hp, heq]; rfl, h.withAllocator ha ?_⟩
    intro e he b hb hptr
    rcases hcase with ⟨rfl, -⟩ | ⟨-, b', hb', hperm⟩
    · exact hb
    · rcases List.mem_cons.1 (hperm.mem_iff.1 hb) with rfl | hb
      · exact absurd (List.mem_map.2 ⟨e, he, hptr.symm.trans hb'⟩) hp
      · exact hb

end Step

theorem inv_construct {bufferSize : ℕ} {a : CudaMemAllocator.St} (ha : CudaMemAllocator.Inv bufferSize a)
    (hsmall : bufferSize < 2 ^ 63) (maximumSize : ℕ) : Inv bufferSize (construct maximumSize a) := by
  refine ⟨ha, hsmall, ?_, ?_, ?_, ?_, ?_, ?_, ?_, ?_, ?_, ?_⟩ <;> simp [construct]

/-- what the four containers have to say of each other -/
structure Bookkeeping (s : St) : Prop where
  usedSize : s.usedSize = ((s.cacheMap.map CacheEntry.size).sum : ℕ)
  bound : s.usedSize ≤ s.maxSize
  /-- the queue refers to each entry exactly once -/
  queue : (s.lruQueue.map QueueNode.ref).Perm (s.cacheMap.map CacheEntry.entry)
  once : (s.lruQueue.map QueueNode.ref).Nodup
  /-- each entry's iterator points to its own queue node -/
  linked : ∀ e ∈ s.cacheMap, find QueueNode.node e.lruQueueIt s.lruQueue = some ⟨e.lruQueueIt, e.entry⟩
  /-- the entries' pointers are distinct and allocated -/
  ptrs : (s.cacheMap.map CacheEntry.ptr).Nodup
  allocated : ∀ e ∈ s.cacheMap, e.ptr ∈ s.allocator.allocatedBlocks.map Prod.fst

theorem Inv.bookkeeping {bufferSize : ℕ} {s : St} (h : Inv bufferSize s) : Bookkeeping s := by
  have hqueue : (s.lruQueue.map QueueNode.ref).Perm (s.cacheMap.map CacheEntry.entry) := by
    have := h.queue.map QueueNode.ref
    rwa [List.map_map] at this
  refine ⟨h.usedSize, h.bound, hqueue, hqueue.nodup_iff.2 h.entries, ?_, h.ptrs, ?_⟩
  · intro e he
    obtain ⟨pre, post, hsplit⟩ := List.append_of_mem he
    exact h.find_queue hsplit
  · intro e he
    obtain ⟨b, hb, hptr, -⟩ := h.blocks e he
    exact List.mem_map.2 ⟨_, CudaMemAllocator.mem_allocatedBlocks h.allocator hb, hptr⟩

/-- **The bookkeeping of the cache is right after every run.** For a cache of any size over every constructed allocator,
every sequence of calls, successful or throwing and interleaved with the other users of the device's memory, is defined
and ends with map, queue, byte counter and allocator describing the same blocks. -/
theorem cache_bookkeeping (free : ℕ) (percent : ℤ) (start : ℕ) (a : CudaMemAllocator.St)
    (ha : CudaMemAllocator.construct free percent (some start) = .ok a) (maximumSize : ℕ) (ops : List Op) :
    ∃ s, Run.exec step (construct maximumSize a) ops = some s ∧ Bookkeeping s := by
  have hsmall : free * percent.toNat % 2 ^ 64 / 100 - CudaMemAllocator.RESERVED_MEMORY < 2 ^ 63 := by omega
  obtain ⟨s, hrun, hinv⟩ := Run.exec_inv step _ step_inv (construct maximumSize a) ops
    (inv_construct (CudaMemAllocator.inv_construct ha) hsmall maximumSize)
  exact ⟨s, hrun, hinv.bookkeeping⟩

/-- 1000 bytes, room for one block: the second request evicts the first one's block, the third does not get one -/
theorem cache_bookkeeping_run :
    ∃ a s, CudaMemAllocator.construct 256001000 100 (some 4096) = .ok a ∧
      Run.exec step (construct 1000 a) [.getColumn 4 "db".toList "t.a".toList 0 100 100 0,
        .getColumn 4 "db".toList "t.b".toList 0 100 100 0, .allocate 1, .setLockList ["db.t.b".toList],
        .getColumn 4 "db".toList "t.c".toList 0 200 200 0, .clearCachedBlock "db".toList "t.b".toList 0] = some s ∧
      Bookkeeping s := by
  obtain ⟨s, hrun, hbook⟩ := cache_bookkeeping 256001000 100 4096 _ rfl 1000
    [.getColumn 4 "db".toList "t.a".toList 0 100 100 0,
      .getColumn 4 "db".toList "t.b".toList 0 100 100 0, .allocate 1, .setLockList ["db.t.b".toList],
      .getColumn 4 "db".toList "t.c".toList 0 200 200 0, .clearCachedBlock "db".toList "t.b".toList 0]
  exact ⟨_, s, rfl, hrun, hbook⟩

end QikkDB.GPUMemoryCache

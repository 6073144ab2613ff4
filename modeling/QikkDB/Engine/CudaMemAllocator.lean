/-
The sub-allocator of a GPU buffer (QueryEngine/CudaMemAllocator.cu): one buffer taken with cudaMalloc at construction,
served by best fit from three linked containers.

- `chainedBlocks_`: all blocks of the buffer in address order, a linked list;
- `blocksBySize_`: the free blocks ordered by size, a multimap to list nodes;
- `allocatedBlocks_`: the allocated blocks by pointer, a hash map to list nodes.

An iterator is the identity of the node or entry it points to. Using an iterator that points nowhere is undefined
(`none`); a thrown exception is a defined outcome and leaves the state as it is at the throw.

Results:
- `inv_construct`: a constructed allocator meets the representation invariant `Inv`.
- `allocate_spec` / `deallocate_spec`: each call is defined, whether it throws or not, keeps `Inv`, and hands out or
  takes back at most one block.
- `representation_invariant`: every sequence of calls from a constructed allocator is defined and ends in `Inv`.
-/
import Mathlib.Tactic
import QikkDB.Lib.Run
import QikkDB.Lib.Tiling
import QikkDB.Lib.NodeList

namespace QikkDB.CudaMemAllocator

open NodeList

/-! ## Model -/

/-- a node of `chainedBlocks_` -/
structure BlockInfo where
  /-- identity of the list node -/
  node : ℕ
  allocated : Bool
  /-- entry of `blocksBySize_`, `none` for its end iterator -/
  sizeOrderIt : Option ℕ
  blockSize : ℕ
  ptr : ℕ
deriving DecidableEq, Repr

/-- an entry of `blocksBySize_` -/
structure SizeEntry where
  /-- identity of the multimap entry -/
  entry : ℕ
  size : ℕ
  node : ℕ
deriving DecidableEq, Repr

structure St where
  cudaBufferStart : ℕ
  chainedBlocks : List BlockInfo
  /-- in the multimap's order -/
  blocksBySize : List SizeEntry
  /-- (pointer, list node) -/
  allocatedBlocks : List (ℕ × ℕ)
  /-- identity of the next list node to be created -/
  nextNode : ℕ
  /-- identity of the next multimap entry to be created -/
  nextEntry : ℕ
deriving DecidableEq, Repr

/-- a call's result: a value or the text of the exception, and the state after it -/
abbrev Result (α : Type) := Except String α × St

def RESERVED_MEMORY : ℕ := 256000000

/-- insertion into the multimap: behind every entry of the same size -/
def emplace (e : SizeEntry) : List SizeEntry → List SizeEntry
  | [] => [e]
  | a :: l => if e.size < a.size then e :: a :: l else a :: emplace e l

/-- first entry of the multimap whose size is not below `n` -/
def lowerBound (n : ℕ) (l : List SizeEntry) : Option SizeEntry := l.find? fun e => n ≤ e.size

/-- `blocksBySize_.erase(it)`: the end iterator and a dangling one are undefined -/
def eraseEntry (s : St) (it : Option ℕ) : Option St := do
  let e ← it
  let _ ← find SizeEntry.entry e s.blocksBySize
  some { s with blocksBySize := erase SizeEntry.entry e s.blocksBySize }

/-- the constructor: `free` bytes reported by the device, `percent` configured, `buffer` what cudaMalloc returns -/
def construct (free : ℕ) (percent : ℤ) (buffer : Option ℕ) : Except String St :=
  if percent < 1 ∨ percent > 100 then .error ("Invalid value of GPUMemoryUsagePercent: " ++ toString percent)
  else
    let usable := free * percent.toNat % 2 ^ 64 / 100
    if usable ≤ RESERVED_MEMORY then .error ("GPUMemoryUsagePercent too low: " ++ toString percent)
    else
      match buffer with
      | none => .error "Failed to alloc GPU buffer"
      | some start =>
        let allocSize := usable - RESERVED_MEMORY
        .ok { cudaBufferStart := start
              chainedBlocks := [⟨0, false, some 0, allocSize, start⟩]
              blocksBySize := [⟨0, allocSize, 0⟩]
              allocatedBlocks := []
              nextNode := 1
              nextEntry := 1 }

/-- `numBytes` rounded up to 512 bytes, converted from ptrdiff_t to size_t -/
def alignedSize (numBytes : ℤ) : ℕ :=
  ((if numBytes % 512 = 0 then numBytes else numBytes + (512 - numBytes % 512)) % 2 ^ 64).toNat

/-- cut the free block of entry `it` to `requestedSize` and chain the rest behind it as a free block -/
def splitBlock (s : St) (it : SizeEntry) (requestedSize : ℕ) : Option St := do
  let blockInfo ← find BlockInfo.node it.node s.chainedBlocks
  let oldSize := it.size
  let newFreePtr := blockInfo.ptr + requestedSize
  let rest : BlockInfo := ⟨s.nextNode, false, some s.nextEntry, oldSize - requestedSize, newFreePtr⟩
  some { s with
    chainedBlocks := update BlockInfo.node it.node (fun b => { b with blockSize := requestedSize })
      (insertAfter BlockInfo.node it.node rest s.chainedBlocks)
    blocksBySize := emplace ⟨s.nextEntry, oldSize - requestedSize, s.nextNode⟩ s.blocksBySize
    nextNode := s.nextNode + 1
    nextEntry := s.nextEntry + 1 }

/-- split only a block that is larger than requested -/
def splitIfLarger (s : St) (it : SizeEntry) (requestedSize : ℕ) : Option St :=
  if it.size > requestedSize then splitBlock s it requestedSize else some s

/-- `allocatedBlocks_.emplace`: a key that is there keeps its value -/
def emplaceAllocated (ptr node : ℕ) (m : List (ℕ × ℕ)) : List (ℕ × ℕ) :=
  if (find Prod.fst ptr m).isSome then m else (ptr, node) :: m

def allocate (s : St) (numBytes : Int64) : Option (Result ℕ) :=
  if numBytes.toInt ≤ 0 then some (.error "Invalid allocation size", s)
  else
    match lowerBound (alignedSize numBytes.toInt) s.blocksBySize with
    | none => some (.error "Out of GPU memory", s)
    | some it => do
      let s := { s with
        chainedBlocks := update BlockInfo.node it.node (fun b => { b with allocated := true }) s.chainedBlocks }
      let s ← splitIfLarger s it (alignedSize numBytes.toInt)
      let s ← eraseEntry s (some it.entry)
      let blockInfo ← find BlockInfo.node it.node s.chainedBlocks
      some (.ok blockInfo.ptr,
        { s with allocatedBlocks := emplaceAllocated blockInfo.ptr it.node s.allocatedBlocks })

/-- merge the block at `listIt` into a free block before it; returns the node that holds the memory -/
def mergePrev (s : St) (listIt : ℕ) : Option (St × ℕ) :=
  match prev BlockInfo.node listIt s.chainedBlocks with
  | none => some (s, listIt)
  | some p =>
    if p.allocated then some (s, listIt)
    else do
      let s ← eraseEntry s p.sizeOrderIt
      let b ← find BlockInfo.node listIt s.chainedBlocks
      some ({ s with
        chainedBlocks := erase BlockInfo.node listIt
          (update BlockInfo.node p.node (fun c => { c with blockSize := c.blockSize + b.blockSize })
            s.chainedBlocks) }, p.node)

/-- merge a free block behind `listIt` into it -/
def mergeNext (s : St) (listIt : ℕ) : Option St :=
  match next BlockInfo.node listIt s.chainedBlocks with
  | none => some s
  | some n =>
    if n.allocated then some s
    else do
      let s ← eraseEntry s n.sizeOrderIt
      some { s with
        chainedBlocks := erase BlockInfo.node n.node
          (update BlockInfo.node listIt (fun c => { c with blockSize := c.blockSize + n.blockSize })
            s.chainedBlocks) }

/-- mark the block at `listIt` free and enter it into `blocksBySize_` -/
def enterFree (s : St) (listIt : ℕ) : Option St := do
  let b ← find BlockInfo.node listIt s.chainedBlocks
  some { s with
    chainedBlocks := update BlockInfo.node listIt
      (fun c => { c with allocated := false, sizeOrderIt := some s.nextEntry }) s.chainedBlocks
    blocksBySize := emplace ⟨s.nextEntry, b.blockSize, listIt⟩ s.blocksBySize
    nextEntry := s.nextEntry + 1 }

def deallocate (s : St) (ptr : ℕ) : Option (Result Unit) :=
  match find Prod.fst ptr s.allocatedBlocks with
  | none => some (.error "Attempted to free unallocated pointer", s)
  | some alloc => do
    let s := { s with allocatedBlocks := erase Prod.fst ptr s.allocatedBlocks }
    let (s, listIt) ← mergePrev s alloc.2
    let s ← mergeNext s listIt
    let s ← enterFree s listIt
    some (.ok (), s)

def canAllocate (s : St) (numBytes : Int64) : Except String Bool :=
  if numBytes.toInt ≤ 0 then .error "Invalid allocation size"
  else .ok (lowerBound (alignedSize numBytes.toInt) s.blocksBySize).isSome

inductive Op where
  | allocate (numBytes : Int64)
  | deallocate (ptr : ℕ)

/-- one call, thrown exceptions caught by the caller -/
def step (s : St) : Op → Option St
  | .allocate n => (allocate s n).map Prod.snd
  | .deallocate p => (deallocate s p).map Prod.snd

/-! ## The representation invariant -/

/-- what an allocated block contributes to `allocatedBlocks_` -/
def allocatedOf (b : BlockInfo) : Option (ℕ × ℕ) := if b.allocated then some (b.ptr, b.node) else none

/-- what a free block contributes to `blocksBySize_`: the entry it links to, keyed by its size, linking back -/
def sizeEntryOf (b : BlockInfo) : Option SizeEntry :=
  if b.allocated then none else b.sizeOrderIt.map fun e => ⟨e, b.blockSize, b.node⟩

structure Inv (bufferSize : ℕ) (s : St) : Prop where
  /-- the chained blocks cover the buffer in address order, none empty -/
  tiles : Tiling.Tiles BlockInfo.ptr BlockInfo.blockSize s.cudaBufferStart s.chainedBlocks
    (s.cudaBufferStart + bufferSize)
  nodes : (s.chainedBlocks.map BlockInfo.node).Nodup
  /-- exactly the allocated blocks, each once, by pointer -/
  allocated : s.allocatedBlocks.Perm (s.chainedBlocks.filterMap allocatedOf)
  /-- exactly the free blocks, each once, by current size, linked both ways -/
  sizes : s.blocksBySize.Perm (s.chainedBlocks.filterMap sizeEntryOf)
  linked : ∀ b ∈ s.chainedBlocks, b.allocated = false → b.sizeOrderIt.isSome
  entries : (s.blocksBySize.map SizeEntry.entry).Nodup
  sorted : s.blocksBySize.Pairwise fun a b => a.size ≤ b.size
  /-- no two neighbours are both free -/
  coalesced : s.chainedBlocks.IsChain fun a b => a.allocated = true ∨ b.allocated = true
  freshNode : ∀ b ∈ s.chainedBlocks, b.node < s.nextNode
  freshEntry : ∀ e ∈ s.blocksBySize, e.entry < s.nextEntry

/-- the blocks handed out and not returned -/
def owned (l : List BlockInfo) : List BlockInfo := l.filter BlockInfo.allocated

/-- the invariant while a call has block `b` in hand: not in `allocatedBlocks_`, with the entries `held` of
`blocksBySize_` not yet erased -/
structure InHand (bufferSize : ℕ) (s : St) (held : List SizeEntry) (pre : List BlockInfo) (b : BlockInfo)
    (post : List BlockInfo) : Prop where
  split : s.chainedBlocks = pre ++ b :: post
  tiles : Tiling.Tiles BlockInfo.ptr BlockInfo.blockSize s.cudaBufferStart (pre ++ b :: post)
    (s.cudaBufferStart + bufferSize)
  nodes : ((pre ++ b :: post).map BlockInfo.node).Nodup
  allocated : s.allocatedBlocks.Perm ((pre ++ post).filterMap allocatedOf)
  sizes : s.blocksBySize.Perm (held ++ (pre ++ post).filterMap sizeEntryOf)
  linked : ∀ c ∈ pre ++ post, c.allocated = false → c.sizeOrderIt.isSome
  entries : (s.blocksBySize.map SizeEntry.entry).Nodup
  sorted : s.blocksBySize.Pairwise fun a b => a.size ≤ b.size
  left : pre.IsChain fun a b => a.allocated = true ∨ b.allocated = true
  right : post.IsChain fun a b => a.allocated = true ∨ b.allocated = true
  freshNode : ∀ c ∈ pre ++ b :: post, c.node < s.nextNode
  freshEntry : ∀ e ∈ s.blocksBySize, e.entry < s.nextEntry

/-! ## The containers -/

theorem emplace_perm (e : SizeEntry) (l : List SizeEntry) : (emplace e l).Perm (e :: l) := by
  induction l with
  | nil => exact List.Perm.refl _
  | cons a l ih =>
    simp only [emplace]
    split_ifs
    · exact List.Perm.refl _
    · exact (ih.cons a).trans (List.Perm.swap e a l)

theorem emplace_sorted (e : SizeEntry) (l : List SizeEntry) (h : l.Pairwise fun a b => a.size ≤ b.size) :
    (emplace e l).Pairwise fun a b => a.size ≤ b.size := by
  induction l with
  | nil => simp [emplace]
  | cons a l ih =>
    obtain ⟨ha, hl⟩ := List.pairwise_cons.1 h
    simp only [emplace]
    split_ifs with hlt
    · refine List.pairwise_cons.2 ⟨?_, h⟩
      intro c hc
      rcases List.mem_cons.1 hc with rfl | hc
      · exact hlt.le
      · exact hlt.le.trans (ha c hc)
    · refine List.pairwise_cons.2 ⟨?_, ih hl⟩
      intro c hc
      rcases List.mem_cons.1 ((emplace_perm e l).mem_iff.1 hc) with rfl | hc
      · exact not_lt.1 hlt
      · exact ha c hc

theorem lowerBound_some {n : ℕ} {l : List SizeEntry} {e : SizeEntry} (h : lowerBound n l = some e) :
    e ∈ l ∧ n ≤ e.size :=
  ⟨List.mem_of_find?_eq_some h, by simpa using List.find?_some h⟩

theorem eraseEntry_some {s : St} {e : SizeEntry} {l m : List SizeEntry} (hp : s.blocksBySize.Perm (l ++ e :: m))
    (hn : (s.blocksBySize.map SizeEntry.entry).Nodup) :
    eraseEntry s (some e.entry) = some { s with blocksBySize := erase SizeEntry.entry e.entry s.blocksBySize } := by
  simp [eraseEntry, find_perm hp hn]

theorem erase_sublist {α : Type*} (key : α → ℕ) (k : ℕ) (l : List α) : (erase key k l).Sublist l :=
  List.filter_sublist

theorem isChain_middle {α : Type*} {R : α → α → Prop} {l m : List α} {a : α} :
    (l ++ a :: m).IsChain R ↔
      l.IsChain R ∧ m.IsChain R ∧ (∀ b ∈ l.getLast?, R b a) ∧ ∀ c ∈ m.head?, R a c := by
  rw [List.isChain_append, List.isChain_cons]
  constructor
  · rintro ⟨hl, ⟨ha, hm⟩, hla⟩
    exact ⟨hl, hm, fun b hb => hla b hb a (by simp), ha⟩
  · rintro ⟨hl, hm, hla, ha⟩
    refine ⟨hl, ⟨ha, hm⟩, ?_⟩
    intro b hb c hc
    obtain rfl : a = c := by simpa using hc
    exact hla b hb

/-- the allocated pointers are pairwise distinct -/
theorem allocated_nodup {l : List BlockInfo} {lo hi : ℕ}
    (h : Tiling.Tiles BlockInfo.ptr BlockInfo.blockSize lo l hi) :
    ((l.filterMap allocatedOf).map Prod.fst).Nodup := by
  have hsub : ((l.filterMap allocatedOf).map Prod.fst).Sublist (l.map BlockInfo.ptr) := by
    clear h
    induction l with
    | nil => simp
    | cons b l ih =>
      by_cases hb : b.allocated = true
      · simpa [allocatedOf, hb] using ih
      · simpa [allocatedOf, hb] using ih.trans (List.sublist_cons_self _ _)
  exact (Tiling.tiles_start_nodup h).sublist hsub

/-- a free block in the chain is not owned -/
theorem owned_free {pre post : List BlockInfo} {b : BlockInfo} (h : b.allocated = false) :
    owned (pre ++ b :: post) = owned (pre ++ post) := by
  simp [owned, h]

theorem owned_middle {pre post : List BlockInfo} {b : BlockInfo} (h : b.allocated = true) :
    (owned (pre ++ b :: post)).Perm (b :: owned (pre ++ post)) := by
  simp [owned, h]

/-! ## Taking a block in hand and putting it back -/

section Hand

variable {bufferSize : ℕ} {s : St} {pre post : List BlockInfo} {b : BlockInfo}

theorem InHand.find {held : List SizeEntry} (h : InHand bufferSize s held pre b post) :
    find BlockInfo.node b.node s.chainedBlocks = some b := by
  rw [h.split]
  exact find_split h.nodes

/-- a hand that holds an allocated block puts it back through `allocatedBlocks_` -/
theorem InHand.enterAllocated (h : InHand bufferSize s [] pre b post) (hb : b.allocated = true) :
    Inv bufferSize { s with allocatedBlocks := emplaceAllocated b.ptr b.node s.allocatedBlocks } := by
  have hkeys := allocated_nodup h.tiles
  have hfm : (pre ++ b :: post).filterMap allocatedOf =
      pre.filterMap allocatedOf ++ (b.ptr, b.node) :: post.filterMap allocatedOf := by
    simp [List.filterMap_append, allocatedOf, hb]
  have hmiss : NodeList.find Prod.fst b.ptr s.allocatedBlocks = none := by
    rw [NodeList.find, List.find?_eq_none]
    intro e he
    rw [hfm] at hkeys
    have hmem := h.allocated.mem_iff.1 he
    rw [List.filterMap_append, List.mem_append] at hmem
    have hne := notMem_of_nodup hkeys
    rcases hmem with hmem | hmem
    · simpa using hne.1 e hmem
    · simpa using hne.2 e hmem
  refine ⟨?_, ?_, ?_, ?_, ?_, h.entries, h.sorted, ?_, ?_, h.freshEntry⟩
  · simpa [h.split] using h.tiles
  · simpa [h.split] using h.nodes
  · have : emplaceAllocated b.ptr b.node s.allocatedBlocks = (b.ptr, b.node) :: s.allocatedBlocks := by
      simp [emplaceAllocated, hmiss]
    simp only [this, h.split, hfm]
    refine List.Perm.trans (h.allocated.cons _) ?_
    rw [List.filterMap_append]
    exact List.perm_middle.symm
  · have : sizeEntryOf b = none := by simp [sizeEntryOf, hb]
    simpa [h.split, List.filterMap_append, List.filterMap_cons, this] using h.sizes
  · intro c hc hfree
    simp only [h.split, List.mem_append, List.mem_cons] at hc
    rcases hc with hc | rfl | hc
    · exact h.linked c (by simp [hc]) hfree
    · simp [hb] at hfree
    · exact h.linked c (by simp [hc]) hfree
  · simp only [h.split]
    exact isChain_middle.2 ⟨h.left, h.right, fun _ _ => Or.inr hb, fun _ _ => Or.inl hb⟩
  · simpa [h.split] using h.freshNode

/-- a hand whose neighbours are allocated puts its block back as a free one -/
theorem InHand.enterFree (h : InHand bufferSize s [] pre b post) (hl : ∀ c ∈ pre.getLast?, c.allocated = true)
    (hr : ∀ c ∈ post.head?, c.allocated = true) :
    ∃ s', enterFree s b.node = some s' ∧ Inv bufferSize s' ∧ owned s'.chainedBlocks = owned (pre ++ post) := by
  set b' : BlockInfo := { b with allocated := false, sizeOrderIt := some s.nextEntry } with hb'
  have hchain : NodeList.update BlockInfo.node b.node
      (fun c => { c with allocated := false, sizeOrderIt := some s.nextEntry }) s.chainedBlocks =
      pre ++ b' :: post := by
    rw [h.split]
    exact update_split _ h.nodes
  refine ⟨_, by simp [CudaMemAllocator.enterFree, h.find]; rfl, ?_, ?_⟩
  swap
  · simp only [hchain]
    exact owned_free rfl
  have hperm := emplace_perm ⟨s.nextEntry, b.blockSize, b.node⟩ s.blocksBySize
  refine ⟨?_, ?_, ?_, ?_, ?_, ?_, emplace_sorted _ _ h.sorted, ?_, ?_, ?_⟩ <;> simp only [hchain]
  · have := h.tiles
    rw [Tiling.tiles_middle] at this ⊢
    exact this
  · simpa using h.nodes
  · have : allocatedOf b' = none := by simp [allocatedOf, hb']
    simpa [List.filterMap_append, List.filterMap_cons, this] using h.allocated
  · have : sizeEntryOf b' = some ⟨s.nextEntry, b.blockSize, b.node⟩ := by simp [sizeEntryOf, hb']
    refine hperm.trans ((h.sizes.cons _).trans ?_)
    simp only [List.nil_append, List.filterMap_append, List.filterMap_cons, this]
    exact List.perm_middle.symm
  · intro c hc hfree
    simp only [List.mem_append, List.mem_cons] at hc
    rcases hc with hc | rfl | hc
    · exact h.linked c (by simp [hc]) hfree
    · simp [hb']
    · exact h.linked c (by simp [hc]) hfree
  · rw [(hperm.map SizeEntry.entry).nodup_iff, List.map_cons, List.nodup_cons]
    refine ⟨?_, h.entries⟩
    intro hmem
    obtain ⟨e, he, heq⟩ := List.mem_map.1 hmem
    have := h.freshEntry e he
    simp only at heq
    omega
  · exact isChain_middle.2 ⟨h.left, h.right, fun c hc => Or.inl (hl c hc), fun c hc => Or.inr (hr c hc)⟩
  · intro c hc
    simp only [List.mem_append, List.mem_cons] at hc
    rcases hc with hc | rfl | hc
    · exact h.freshNode c (by simp [hc])
    · exact h.freshNode b (by simp)
    · exact h.freshNode c (by simp [hc])
  · intro e he
    rcases List.mem_cons.1 (hperm.mem_iff.1 he) with rfl | he
    · exact Nat.lt_succ_self _
    · exact Nat.lt_succ_of_lt (h.freshEntry e he)

/-- `Deallocate` takes the block of an entry of `allocatedBlocks_` in hand -/
theorem Inv.takeAllocated (h : Inv bufferSize s) {ptr node : ℕ} (hmem : (ptr, node) ∈ s.allocatedBlocks) :
    ∃ pre b post, b.node = node ∧ b.ptr = ptr ∧ b.allocated = true ∧ s.chainedBlocks = pre ++ b :: post ∧
      InHand bufferSize { s with allocatedBlocks := erase Prod.fst ptr s.allocatedBlocks } [] pre b post := by
  obtain ⟨b, hb, hof⟩ := List.mem_filterMap.1 (h.allocated.mem_iff.1 hmem)
  obtain ⟨hall, hptr, hnode⟩ : b.allocated = true ∧ b.ptr = ptr ∧ b.node = node := by
    simpa [allocatedOf] using hof
  obtain ⟨pre, post, hsplit⟩ := List.append_of_mem hb
  have hkeys : (s.allocatedBlocks.map Prod.fst).Nodup :=
    (h.allocated.map Prod.fst).nodup_iff.2 (allocated_nodup h.tiles)
  have hchain := h.coalesced
  rw [hsplit, isChain_middle] at hchain
  refine ⟨pre, b, post, hnode, hptr, hall, hsplit, hsplit, ?_, ?_, ?_, ?_, ?_, h.entries, h.sorted, hchain.1, hchain.2.1, ?_,
    h.freshEntry⟩
  · simpa [hsplit] using h.tiles
  · simpa [hsplit] using h.nodes
  · have hperm : s.allocatedBlocks.Perm
        (pre.filterMap allocatedOf ++ (b.ptr, b.node) :: post.filterMap allocatedOf) := by
      have := h.allocated
      rw [hsplit] at this
      simpa [List.filterMap_append, allocatedOf, hall] using this
    have := erase_perm hperm hkeys
    simpa [← hptr, List.filterMap_append] using this
  · have hnone : sizeEntryOf b = none := by simp [sizeEntryOf, hall]
    have := h.sizes
    rw [hsplit] at this
    simpa [List.filterMap_append, List.filterMap_cons, hnone] using this
  · intro c hc
    exact h.linked c (by rw [hsplit]; simp only [List.mem_append, List.mem_cons] at hc ⊢; tauto)
  · simpa [hsplit] using h.freshNode

/-- the hand absorbs a free neighbour `f`: its size entry goes, and the block `m` takes over the memory of both -/
theorem InHand.absorb (h : InHand bufferSize s [] pre b post) (f m : BlockInfo) (pre' post' : List BlockInfo)
    (hsplit : pre ++ post = pre' ++ f :: post') (hf : f.allocated = false)
    (htiles : Tiling.Tiles BlockInfo.ptr BlockInfo.blockSize s.cudaBufferStart (pre' ++ m :: post')
      (s.cudaBufferStart + bufferSize))
    (hnodes : ((pre' ++ m :: post').map BlockInfo.node).Sublist ((pre ++ b :: post).map BlockInfo.node))
    (hleft : pre'.IsChain fun a b => a.allocated = true ∨ b.allocated = true)
    (hright : post'.IsChain fun a b => a.allocated = true ∨ b.allocated = true) :
    ∃ s', eraseEntry s f.sizeOrderIt = some s' ∧ s'.chainedBlocks = s.chainedBlocks ∧
      InHand bufferSize { s' with chainedBlocks := pre' ++ m :: post' } [] pre' m post' := by
  obtain ⟨e, he⟩ := Option.isSome_iff_exists.1 (h.linked f (by simp [hsplit]) hf)
  have hof : sizeEntryOf f = some ⟨e, f.blockSize, f.node⟩ := by simp [sizeEntryOf, hf, he]
  have hperm : s.blocksBySize.Perm
      (pre'.filterMap sizeEntryOf ++ ⟨e, f.blockSize, f.node⟩ :: post'.filterMap sizeEntryOf) := by
    have := h.sizes
    rw [hsplit] at this
    simpa [List.filterMap_append, hof] using this
  refine ⟨{ s with blocksBySize := erase SizeEntry.entry e s.blocksBySize }, ?_, rfl, rfl, htiles,
    h.nodes.sublist hnodes, ?_, ?_, ?_, ?_, ?_, hleft, hright, ?_, ?_⟩
  · rw [he]
    exact eraseEntry_some hperm h.entries
  · have hnone : allocatedOf f = none := by simp [allocatedOf, hf]
    have := h.allocated
    rw [hsplit] at this
    simpa [List.filterMap_append, List.filterMap_cons, hnone] using this
  · simpa [List.filterMap_append] using erase_perm hperm h.entries
  · intro c hc
    exact h.linked c (by rw [hsplit]; simp only [List.mem_append, List.mem_cons] at hc ⊢; tauto)
  · exact h.entries.sublist ((erase_sublist _ _ _).map _)
  · exact h.sorted.sublist (erase_sublist _ _ _)
  · intro c hc
    obtain ⟨d, hd, hnode⟩ := List.mem_map.1 (hnodes.subset (List.mem_map_of_mem hc))
    have := h.freshNode d hd
    simp only
    omega
  · intro c hc
    exact h.freshEntry c ((erase_sublist _ _ _).subset hc)

/-- merging backwards leaves an allocated block, or nothing, before the hand -/
theorem InHand.mergePrev (h : InHand bufferSize s [] pre b post) :
    ∃ s' pre' b', mergePrev s b.node = some (s', b'.node) ∧ InHand bufferSize s' [] pre' b' post ∧
      owned (pre' ++ post) = owned (pre ++ post) ∧ ∀ c ∈ pre'.getLast?, c.allocated = true := by
  have hprev : prev BlockInfo.node b.node s.chainedBlocks = pre.getLast? := by
    rw [h.split]
    exact prev_split h.nodes
  rcases List.eq_nil_or_concat' pre with rfl | ⟨pre', p, rfl⟩
  · exact ⟨s, [], b, by simp [CudaMemAllocator.mergePrev, hprev], h, rfl, by simp⟩
  by_cases hp : p.allocated = true
  · exact ⟨s, pre' ++ [p], b, by simp [CudaMemAllocator.mergePrev, hprev, hp], h, rfl, by simp [hp]⟩
  rw [Bool.not_eq_true] at hp
  set m : BlockInfo := { p with blockSize := p.blockSize + b.blockSize } with hm
  have hleft := List.isChain_append.1 h.left
  have htiles := h.tiles
  simp only [List.append_assoc, List.singleton_append, Tiling.tiles_middle, Tiling.Tiles] at htiles
  obtain ⟨ht₁, ht₂, _, ht₃, ht₄⟩ := htiles
  obtain ⟨s', herase, hsame, hhand⟩ := h.absorb p m pre' post (by simp) hp
    (Tiling.tiles_middle _ _ _ |>.2 ⟨ht₁, by simp [hm]; omega, by simpa [hm, Nat.add_assoc] using ht₄⟩)
    (by simp [hm]) hleft.1 h.right
  have hchain : erase BlockInfo.node b.node (update BlockInfo.node p.node
      (fun c => { c with blockSize := c.blockSize + b.blockSize }) s'.chainedBlocks) = pre' ++ m :: post := by
    have hupd : update BlockInfo.node p.node (fun c => { c with blockSize := c.blockSize + b.blockSize })
        (pre' ++ p :: b :: post) = pre' ++ m :: b :: post := update_split _ (by simpa using h.nodes)
    have hdel : erase BlockInfo.node b.node ((pre' ++ [m]) ++ b :: post) = (pre' ++ [m]) ++ post :=
      erase_split (by simpa [hm] using h.nodes)
    rw [hsame, h.split, List.append_assoc, List.singleton_append, hupd]
    simpa using hdel
  refine ⟨_, pre', m, ?_, hhand, by simp [owned, hp], fun c hc => ?_⟩
  · have hfind : NodeList.find BlockInfo.node b.node s'.chainedBlocks = some b := hsame ▸ h.find
    simp [CudaMemAllocator.mergePrev, hprev, hp, herase, hfind, hchain, hm]
  · simpa [hp] using hleft.2.2 c hc p (by simp)

/-- merging forwards leaves an allocated block, or nothing, behind the hand -/
theorem InHand.mergeNext (h : InHand bufferSize s [] pre b post) :
    ∃ s' b' post', mergeNext s b.node = some s' ∧ b'.node = b.node ∧ InHand bufferSize s' [] pre b' post' ∧
      owned (pre ++ post') = owned (pre ++ post) ∧ ∀ c ∈ post'.head?, c.allocated = true := by
  have hnext : next BlockInfo.node b.node s.chainedBlocks = post.head? := by
    rw [h.split]
    exact next_split h.nodes
  rcases post with _ | ⟨n, post'⟩
  · exact ⟨s, b, [], by simp [CudaMemAllocator.mergeNext, hnext], rfl, h, rfl, by simp⟩
  by_cases hn : n.allocated = true
  · exact ⟨s, b, n :: post', by simp [CudaMemAllocator.mergeNext, hnext, hn], rfl, h, rfl, by simp [hn]⟩
  rw [Bool.not_eq_true] at hn
  set m : BlockInfo := { b with blockSize := b.blockSize + n.blockSize } with hm
  have hright := List.isChain_cons.1 h.right
  have htiles := h.tiles
  simp only [Tiling.tiles_middle, Tiling.Tiles] at htiles
  obtain ⟨ht₁, ht₂, _, ht₃, ht₄⟩ := htiles
  obtain ⟨s', herase, hsame, hhand⟩ := h.absorb n m pre post' rfl hn
    (Tiling.tiles_middle _ _ _ |>.2 ⟨ht₁, by simp [hm]; omega, by simpa [hm, Nat.add_assoc] using ht₄⟩)
    (by simp [hm]) h.left hright.2
  have hchain : erase BlockInfo.node n.node (update BlockInfo.node b.node
      (fun c => { c with blockSize := c.blockSize + n.blockSize }) s'.chainedBlocks) = pre ++ m :: post' := by
    have hdel : erase BlockInfo.node n.node ((pre ++ [m]) ++ n :: post') = (pre ++ [m]) ++ post' :=
      erase_split (by simpa [hm] using h.nodes)
    rw [hsame, h.split, update_split _ h.nodes]
    simpa using hdel
  refine ⟨_, m, post', ?_, rfl, hhand, (owned_free hn).symm, fun c hc => ?_⟩
  · simp [CudaMemAllocator.mergeNext, hnext, hn, herase, hchain]
  · simpa [hn] using hright.1 c hc

/-- `Allocate` marks the block of entry `e`: the block is in hand, its entry not yet erased -/
theorem Inv.mark (h : Inv bufferSize s) {e : SizeEntry} (he : e ∈ s.blocksBySize) :
    ∃ pre b post, b.node = e.node ∧ b.allocated = true ∧ b.blockSize = e.size ∧
      (∀ c ∈ post.head?, c.allocated = true) ∧ owned s.chainedBlocks = owned (pre ++ post) ∧
      InHand bufferSize { s with
        chainedBlocks := update BlockInfo.node e.node (fun b => { b with allocated := true }) s.chainedBlocks }
        [e] pre b post := by
  obtain ⟨b, hb, hof⟩ := List.mem_filterMap.1 (h.sizes.mem_iff.1 he)
  obtain ⟨hfree, hnode, hsize⟩ : b.allocated = false ∧ b.node = e.node ∧ b.blockSize = e.size := by
    obtain ⟨hfree, i, -, rfl⟩ : b.allocated = false ∧ ∃ i, b.sizeOrderIt = some i ∧ ⟨i, b.blockSize, b.node⟩ = e := by
      simpa [sizeEntryOf] using hof
    exact ⟨hfree, rfl, rfl⟩
  obtain ⟨pre, post, hsplit⟩ := List.append_of_mem hb
  have hnodes := h.nodes
  rw [hsplit] at hnodes
  obtain ⟨hleft, hright, _, hnext⟩ := isChain_middle.1 (hsplit ▸ h.coalesced)
  refine ⟨pre, { b with allocated := true }, post, hnode, rfl, hsize, fun c hc => ?_, hsplit ▸ owned_free hfree, ?_, ?_, ?_, ?_,
    ?_, ?_, h.entries, h.sorted, hleft, hright, ?_, h.freshEntry⟩
  · simpa [hfree] using hnext c hc
  · simp only [hsplit, ← hnode]
    exact update_split _ hnodes
  · have := h.tiles
    rw [hsplit, Tiling.tiles_middle] at this
    exact (Tiling.tiles_middle _ _ _).2 this
  · simpa using hnodes
  · have hnone : allocatedOf b = none := by simp [allocatedOf, hfree]
    have := h.allocated
    rw [hsplit] at this
    simpa [List.filterMap_append, List.filterMap_cons, hnone] using this
  · have := h.sizes
    simp only [hsplit, List.filterMap_append, List.filterMap_cons, hof] at this
    simpa [List.filterMap_append] using this.trans List.perm_middle
  · intro c hc
    exact h.linked c (by rw [hsplit]; simp only [List.mem_append, List.mem_cons] at hc ⊢; tauto)
  · have hfresh := h.freshNode
    rw [hsplit] at hfresh
    intro c hc
    simp only [List.mem_append, List.mem_cons] at hc
    rcases hc with hc | rfl | hc
    · exact hfresh c (by simp [hc])
    · exact hfresh b (by simp)
    · exact hfresh c (by simp [hc])

/-- `SplitBlock` shortens the block in hand and chains the rest behind it as a free block of its own -/
theorem InHand.splitBlock {e : SizeEntry} {size : ℕ} (h : InHand bufferSize s [e] pre b post)
    (hnode : b.node = e.node) (hsize : b.blockSize = e.size) (hpos : 0 < size) (hlt : size < e.size)
    (hnext : ∀ c ∈ post.head?, c.allocated = true) :
    ∃ s' b' post', splitBlock s e size = some s' ∧ b'.node = b.node ∧ b'.allocated = b.allocated ∧ b'.blockSize = size ∧
      owned (pre ++ post') = owned (pre ++ post) ∧ InHand bufferSize s' [e] pre b' post' := by
  set r : BlockInfo := ⟨s.nextNode, false, some s.nextEntry, e.size - size, b.ptr + size⟩ with hr
  have hrest : sizeEntryOf r = some ⟨s.nextEntry, e.size - size, s.nextNode⟩ := by simp [sizeEntryOf, hr]
  have hemp := emplace_perm ⟨s.nextEntry, e.size - size, s.nextNode⟩ s.blocksBySize
  -- the new node is fresh
  have hnodes : ((pre ++ b :: r :: post).map BlockInfo.node).Nodup := by
    have hperm : ((pre ++ b :: r :: post).map BlockInfo.node).Perm
        (r.node :: (pre ++ b :: post).map BlockInfo.node) := by
      simp only [List.map_append, List.map_cons]
      exact (List.Perm.append_left _ (List.Perm.swap _ _ _)).trans List.perm_middle
    rw [hperm.nodup_iff, List.nodup_cons]
    refine ⟨?_, h.nodes⟩
    intro hmem
    obtain ⟨c, hc, hcr⟩ := List.mem_map.1 hmem
    have := h.freshNode c hc
    simp only [hr] at hcr
    omega
  have hchain : update BlockInfo.node e.node (fun b => { b with blockSize := size })
      (insertAfter BlockInfo.node e.node r s.chainedBlocks) = pre ++ { b with blockSize := size } :: r :: post := by
    rw [h.split, ← hnode, insertAfter_split r h.nodes, update_split _ hnodes]
  have hfind : NodeList.find BlockInfo.node e.node s.chainedBlocks = some b := hnode ▸ h.find
  refine ⟨_, { b with blockSize := size }, r :: post, by simp [CudaMemAllocator.splitBlock, hfind, ← hr, hchain]; rfl,
    rfl, rfl, rfl, owned_free rfl, rfl, ?_, ?_, ?_, ?_, ?_, ?_, emplace_sorted _ _ h.sorted, h.left, ?_, ?_, ?_⟩
  · have ht := h.tiles
    simp only [Tiling.tiles_middle, Tiling.Tiles] at ht ⊢
    refine ⟨ht.1, hpos, rfl, by simp only [hr]; omega, ?_⟩
    have hend : b.ptr + size + r.blockSize = b.ptr + b.blockSize := by
      simp only [hr]
      omega
    rw [hend]
    exact ht.2.2
  · simpa using hnodes
  · have hnone : allocatedOf r = none := by simp [allocatedOf, hr]
    simpa [List.filterMap_append, List.filterMap_cons, hnone] using h.allocated
  · refine hemp.trans ((h.sizes.cons _).trans ?_)
    simp only [List.filterMap_append, List.filterMap_cons, hrest, List.cons_append, List.nil_append]
    exact (List.Perm.swap _ _ _).trans (List.perm_middle.symm.cons _)
  · intro c hc
    simp only [List.mem_append, List.mem_cons] at hc
    rcases hc with hc | rfl | hc
    · exact h.linked c (by simp [hc])
    · simp [hr]
    · exact h.linked c (by simp [hc])
  · rw [(hemp.map SizeEntry.entry).nodup_iff, List.map_cons, List.nodup_cons]
    refine ⟨?_, h.entries⟩
    intro hmem
    obtain ⟨c, hc, heq⟩ := List.mem_map.1 hmem
    have := h.freshEntry c hc
    simp only at heq
    omega
  · exact List.isChain_cons.2 ⟨fun c hc => Or.inr (hnext c hc), h.right⟩
  · intro c hc
    simp only [List.mem_append, List.mem_cons] at hc
    rcases hc with hc | rfl | rfl | hc
    · exact Nat.lt_succ_of_lt (h.freshNode c (by simp [hc]))
    · exact Nat.lt_succ_of_lt (h.freshNode b (by simp))
    · exact Nat.lt_succ_self _
    · exact Nat.lt_succ_of_lt (h.freshNode c (by simp [hc]))
  · intro c hc
    rcases List.mem_cons.1 (hemp.mem_iff.1 hc) with rfl | hc
    · exact Nat.lt_succ_self _
    · exact Nat.lt_succ_of_lt (h.freshEntry c hc)

/-- erasing the held entry leaves the block in hand with none -/
theorem InHand.eraseHeld {e : SizeEntry} (h : InHand bufferSize s [e] pre b post) :
    ∃ s', eraseEntry s (some e.entry) = some s' ∧ InHand bufferSize s' [] pre b post := by
  have hperm : s.blocksBySize.Perm ([] ++ e :: (pre ++ post).filterMap sizeEntryOf) := h.sizes
  exact ⟨_, eraseEntry_some hperm h.entries,
    { h with
      sizes := erase_perm hperm h.entries
      entries := h.entries.sublist ((erase_sublist _ _ _).map _)
      sorted := h.sorted.sublist (erase_sublist _ _ _)
      freshEntry := fun c hc => h.freshEntry c ((erase_sublist _ _ _).subset hc) }⟩

end Hand

/-! ## The two calls -/

/-- a block handed out is entered in `allocatedBlocks_` -/
theorem mem_allocatedBlocks {bufferSize : ℕ} {s : St} (h : Inv bufferSize s) {b : BlockInfo}
    (hb : b ∈ owned s.chainedBlocks) : (b.ptr, b.node) ∈ s.allocatedBlocks := by
  obtain ⟨hb, hall⟩ := List.mem_filter.1 hb
  exact h.allocated.mem_iff.2 (List.mem_filterMap.2 ⟨b, hb, if_pos hall⟩)

theorem alignedSize_pos (n : ℤ) (h : 0 < n) (hlt : n < 2 ^ 63) : 0 < alignedSize n := by
  unfold alignedSize
  split_ifs <;> omega

theorem le_alignedSize (n : ℤ) (h : 0 < n) (hlt : n < 2 ^ 63) : n ≤ alignedSize n := by
  unfold alignedSize
  split_ifs <;> omega

/-- what a call of `Allocate` may do to the blocks handed out: nothing when it throws, else one more block, which
starts at the pointer returned and holds `numBytes` -/
def Handed (s : St) (numBytes : Int64) (s' : St) : Except String ℕ → Prop
  | .error _ => s' = s
  | .ok p => ∃ b : BlockInfo, b.ptr = p ∧ numBytes.toInt ≤ b.blockSize ∧
      (owned s'.chainedBlocks).Perm (b :: owned s.chainedBlocks)

/-- A request for which `blocksBySize_` has an entry is granted: one more block is handed out, of the aligned size. -/
theorem allocate_granted {bufferSize : ℕ} {s : St} (h : Inv bufferSize s) {numBytes : Int64} {e : SizeEntry}
    (hpos : 0 < numBytes.toInt) (hf : lowerBound (alignedSize numBytes.toInt) s.blocksBySize = some e) :
    ∃ s' b, allocate s numBytes = some (.ok b.ptr, s') ∧ Inv bufferSize s' ∧
      b.blockSize = alignedSize numBytes.toInt ∧ (owned s'.chainedBlocks).Perm (b :: owned s.chainedBlocks) := by
  have hneg : ¬ numBytes.toInt ≤ 0 := not_le.2 hpos
  set size := alignedSize numBytes.toInt with hsz
  have hsizePos : 0 < size := alignedSize_pos _ hpos numBytes.toInt_lt
  obtain ⟨hmem, hle⟩ := lowerBound_some hf
  obtain ⟨pre, b, post, hnode, hall, hsize, hnext, hown, h₀⟩ := h.mark hmem
  set s₀ := { s with
    chainedBlocks := update BlockInfo.node e.node (fun b => { b with allocated := true }) s.chainedBlocks } with hs₀
  obtain ⟨s₁, b₁, post₁, hsplit, hnode₁, hall₁, hsize₁, hown₁, h₁⟩ : ∃ s₁ b₁ post₁,
      splitIfLarger s₀ e size = some s₁ ∧ b₁.node = b.node ∧ b₁.allocated = b.allocated ∧ b₁.blockSize = size ∧
        owned (pre ++ post₁) = owned (pre ++ post) ∧ InHand bufferSize s₁ [e] pre b₁ post₁ := by
    unfold splitIfLarger
    split_ifs with hgt
    · exact h₀.splitBlock hnode hsize hsizePos hgt hnext
    · exact ⟨s₀, b, post, rfl, rfl, rfl, hsize.trans (le_antisymm (not_lt.1 hgt) hle), rfl, h₀⟩
  obtain ⟨s₂, herase, h₂⟩ := h₁.eraseHeld
  have hfind := h₂.find
  rw [hnode₁, hnode] at hfind
  have hinv := h₂.enterAllocated (hall₁.trans hall)
  rw [hnode₁, hnode] at hinv
  refine ⟨_, b₁, ?_, hinv, hsize₁, ?_⟩
  · simp [allocate, hneg, ← hsz, hf, ← hs₀, hsplit, herase, hfind]
  · simp only [h₂.split, hown, ← hown₁]
    exact owned_middle (hall₁.trans hall)

/-- `Allocate` is defined for every size, keeps the invariant and hands out at most one block. -/
theorem allocate_spec {bufferSize : ℕ} {s : St} (h : Inv bufferSize s) (numBytes : Int64) :
    ∃ r s', allocate s numBytes = some (r, s') ∧ Inv bufferSize s' ∧ Handed s numBytes s' r := by
  by_cases hneg : numBytes.toInt ≤ 0
  · exact ⟨.error "Invalid allocation size", s, by simp [allocate, hneg], h, rfl⟩
  cases hf : lowerBound (alignedSize numBytes.toInt) s.blocksBySize with
  | none => exact ⟨.error "Out of GPU memory", s, by simp [allocate, hneg, hf], h, rfl⟩
  | some e =>
    obtain ⟨s', b, heq, hinv, hsize, hown⟩ := allocate_granted h (not_le.1 hneg) hf
    refine ⟨.ok b.ptr, s', heq, hinv, b, rfl, ?_, hown⟩
    rw [hsize]
    exact le_alignedSize _ (not_le.1 hneg) numBytes.toInt_lt

/-- `CanAllocate` foretells that `Allocate` does not throw. -/
theorem allocate_of_canAllocate {s s' : St} {numBytes : Int64} {r : Except String ℕ}
    (hcan : canAllocate s numBytes = .ok true) (h : allocate s numBytes = some (r, s')) : ∃ p, r = .ok p := by
  simp only [canAllocate] at hcan
  split_ifs at hcan with hneg
  obtain ⟨e, he⟩ := Option.isSome_iff_exists.1 (Except.ok.inj hcan)
  simp only [allocate, hneg, if_false, he, Option.bind_eq_bind, Option.bind_eq_some_iff] at h
  obtain ⟨_, -, _, -, b, -, h⟩ := h
  exact ⟨b.ptr, (congrArg Prod.fst (Option.some.inj h)).symm⟩

/-- `Deallocate` is defined for every pointer, keeps the invariant and, unless it throws and changes nothing, takes
back the block that starts there. -/
theorem deallocate_spec {bufferSize : ℕ} {s : St} (h : Inv bufferSize s) (ptr : ℕ) :
    ∃ r s', deallocate s ptr = some (r, s') ∧ Inv bufferSize s' ∧
      (s' = s ∧ (∀ b ∈ owned s.chainedBlocks, b.ptr ≠ ptr) ∨
        r = .ok () ∧ ∃ b : BlockInfo, b.ptr = ptr ∧
          (owned s.chainedBlocks).Perm (b :: owned s'.chainedBlocks)) := by
  cases hf : find Prod.fst ptr s.allocatedBlocks with
  | none =>
    refine ⟨.error "Attempted to free unallocated pointer", s, by simp [deallocate, hf], h, Or.inl ⟨rfl, ?_⟩⟩
    intro b hb
    simpa using List.find?_eq_none.1 hf _ (mem_allocatedBlocks h hb)
  | some alloc =>
    have hmem := List.mem_of_find?_eq_some hf
    have hkey : alloc.1 = ptr := by simpa using List.find?_some hf
    subst hkey
    obtain ⟨pre, b, post, hnode, hptr, hall, hsplit, h₀⟩ := h.takeAllocated hmem
    obtain ⟨s₁, pre₁, b₁, hprev, h₁, ho₁, hl⟩ := h₀.mergePrev
    obtain ⟨s₂, b₂, post₂, hnext, hb₂, h₂, ho₂, hr⟩ := h₁.mergeNext
    obtain ⟨s₃, hfree, h₃, ho₃⟩ := h₂.enterFree hl hr
    refine ⟨.ok (), s₃, ?_, h₃, Or.inr ⟨rfl, b, hptr, ?_⟩⟩
    · rw [hnode] at hprev
      rw [hb₂] at hfree
      simp [deallocate, hf, hprev, hnext, hfree]
    · rw [hsplit, ho₃, ho₂, ho₁]
      exact owned_middle hall

/-- the blocks handed out start at pairwise distinct pointers -/
theorem owned_nodup {bufferSize : ℕ} {s : St} (h : Inv bufferSize s) :
    ((owned s.chainedBlocks).map BlockInfo.ptr).Nodup :=
  (Tiling.tiles_start_nodup h.tiles).sublist (List.filter_sublist.map _)

/-- the blocks handed out fit into the buffer -/
theorem owned_sum {bufferSize : ℕ} {s : St} (h : Inv bufferSize s) :
    ((owned s.chainedBlocks).map BlockInfo.blockSize).sum ≤ bufferSize := by
  have hall := Tiling.tiles_sum h.tiles
  have hsub : ((owned s.chainedBlocks).map BlockInfo.blockSize).Sublist (s.chainedBlocks.map BlockInfo.blockSize) :=
    List.filter_sublist.map _
  have := hsub.sum_le_sum fun a _ => Nat.zero_le a
  omega

/-! ## Whole runs -/

theorem inv_construct {free : ℕ} {percent : ℤ} {start : ℕ} {s : St}
    (h : construct free percent (some start) = .ok s) :
    Inv (free * percent.toNat % 2 ^ 64 / 100 - RESERVED_MEMORY) s := by
  simp only [construct] at h
  split_ifs at h with _ hlow
  obtain rfl := Except.ok.inj h
  constructor <;> simp [Tiling.Tiles, allocatedOf, sizeEntryOf]
  omega

theorem step_inv {bufferSize : ℕ} (s : St) (o : Op) (h : Inv bufferSize s) :
    ∃ s', step s o = some s' ∧ Inv bufferSize s' := by
  cases o with
  | allocate n =>
    obtain ⟨r, s', heq, hinv, -⟩ := allocate_spec h n
    exact ⟨s', by simp [step, heq], hinv⟩
  | deallocate p =>
    obtain ⟨r, s', heq, hinv, -⟩ := deallocate_spec h p
    exact ⟨s', by simp [step, heq], hinv⟩

/-- **The representation invariant holds after every run.** From every constructed allocator, every sequence of
`Allocate` and `Deallocate` calls, successful or throwing, is defined and leaves the three containers in `Inv` for the
buffer that was allocated. -/
theorem representation_invariant (free : ℕ) (percent : ℤ) (start : ℕ) (s : St)
    (h : construct free percent (some start) = .ok s) (ops : List Op) :
    ∃ s', Run.exec step s ops = some s' ∧ Inv (free * percent.toNat % 2 ^ 64 / 100 - RESERVED_MEMORY) s' :=
  Run.exec_inv step _ step_inv s ops (inv_construct h)

/-- a buffer of 1000 bytes, split by the first call, refused by the second, whole again after the third -/
theorem representation_invariant_run :
    ∃ s s', construct 256001000 100 (some 4096) = .ok s ∧
      Run.exec step s [.allocate 100, .allocate 2000, .deallocate 4096] = some s' ∧ Inv 1000 s' := by
  obtain ⟨s', hrun, hinv⟩ := representation_invariant 256001000 100 4096 _ rfl
    [.allocate 100, .allocate 2000, .deallocate 4096]
  exact ⟨_, s', rfl, hrun, hinv⟩

end QikkDB.CudaMemAllocator

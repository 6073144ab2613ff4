/-
What a client of the sub-allocator sees (QueryEngine/CudaMemAllocator.cu): the ranges it has been handed and not
returned, beside the allocator's own state.

- `canAllocate_iff`: the entries of `blocksBySize_` show every free block, so `CanAllocate` is exact.
- `Ledger`: the blocks marked allocated are the client's live ranges; kept by every call (`call_ledger`).
- `whole_of_no_live`: with nothing live, the coalesced chain is one free block.
- `complete_and_reversible`: after every run of calls, `Allocate` serves a request exactly when a free block is large
  enough, the range is disjoint from every live one, and returning all of them in any order leaves the whole buffer.
-/
import QikkDB.Engine.CudaMemAllocator

namespace QikkDB.CudaMemAllocator

/-! ## The client -/

/-- a request rounded up to the allocation unit of 512 bytes -/
def roundUp (numBytes : ℕ) : ℕ := (numBytes + 511) / 512 * 512

/-- a range handed out: pointer and rounded size -/
abbrev Live := ℕ × ℕ

/-- the addresses of a range -/
abbrev addresses (a : Live) : Set ℕ := Tiling.range Prod.fst Prod.snd a

/-- one call and the client's record of it: a pointer returned is live, a pointer taken back is not -/
def call (c : St × List Live) : Op → Option (St × List Live)
  | .allocate n => (allocate c.1 n).map fun rs =>
      (rs.2, match rs.1 with
        | .ok p => (p, roundUp n.toInt.toNat) :: c.2
        | .error _ => c.2)
  | .deallocate p => (deallocate c.1 p).map fun rs =>
      (rs.2, match rs.1 with
        | .ok _ => c.2.filter fun a => a.1 ≠ p
        | .error _ => c.2)

/-- the range of a block -/
def liveOf (b : BlockInfo) : Live := (b.ptr, b.blockSize)

/-- the allocator's state and the client's record of live ranges agree -/
structure Ledger (start bufferSize : ℕ) (c : St × List Live) : Prop where
  inv : Inv bufferSize c.1
  buffer : c.1.cudaBufferStart = start
  live : c.2.Perm ((owned c.1.chainedBlocks).map liveOf)

/-! ## Requests -/

theorem alignedSize_eq_roundUp {n : ℤ} (hpos : 0 < n) (hlt : n < 2 ^ 63) : alignedSize n = roundUp n.toNat := by
  obtain ⟨m, rfl⟩ := Int.eq_ofNat_of_zero_le hpos.le
  simp only [alignedSize, roundUp, Int.toNat_natCast]
  split_ifs <;> omega

/-- an entry of `blocksBySize_` is large enough exactly when a free block is -/
theorem lowerBound_isSome_iff {bufferSize : ℕ} {s : St} (h : Inv bufferSize s) (n : ℕ) :
    (lowerBound n s.blocksBySize).isSome ↔ ∃ b ∈ s.chainedBlocks, b.allocated = false ∧ n ≤ b.blockSize := by
  simp only [lowerBound, List.find?_isSome, decide_eq_true_eq]
  constructor
  · rintro ⟨e, he, hle⟩
    obtain ⟨b, hb, hof⟩ := List.mem_filterMap.1 (h.sizes.mem_iff.1 he)
    obtain ⟨hfree, i, -, rfl⟩ : b.allocated = false ∧ ∃ i, b.sizeOrderIt = some i ∧ ⟨i, b.blockSize, b.node⟩ = e := by
      simpa [sizeEntryOf] using hof
    exact ⟨b, hb, hfree, hle⟩
  · rintro ⟨b, hb, hfree, hle⟩
    obtain ⟨i, hi⟩ := Option.isSome_iff_exists.1 (h.linked b hb hfree)
    refine ⟨⟨i, b.blockSize, b.node⟩, h.sizes.mem_iff.2 (List.mem_filterMap.2 ⟨b, hb, ?_⟩), hle⟩
    simp [sizeEntryOf, hfree, hi]

theorem canAllocate_iff {bufferSize : ℕ} {s : St} (h : Inv bufferSize s) {n : Int64} (hpos : 0 < n.toInt) :
    canAllocate s n = .ok true ↔
      ∃ b ∈ s.chainedBlocks, b.allocated = false ∧ roundUp n.toInt.toNat ≤ b.blockSize := by
  rw [← alignedSize_eq_roundUp hpos n.toInt_lt, ← lowerBound_isSome_iff h]
  simp [canAllocate, not_le.2 hpos]

/-- the ranges of the blocks handed out share no address -/
theorem owned_disjoint {bufferSize : ℕ} {s : St} (h : Inv bufferSize s) :
    (owned s.chainedBlocks).Pairwise fun a b => Disjoint (addresses (liveOf a)) (addresses (liveOf b)) :=
  (Tiling.tiles_disjoint h.tiles).sublist List.filter_sublist

/-- A request is granted exactly when a free block is large enough, and then with a range of the rounded size that no
live range touches. -/
theorem allocate_complete {start bufferSize : ℕ} {s : St} {live : List Live} (h : Ledger start bufferSize (s, live))
    {n : Int64} (hpos : 0 < n.toInt) :
    ∃ r s', allocate s n = some (r, s') ∧
      ((∃ b ∈ s.chainedBlocks, b.allocated = false ∧ roundUp n.toInt.toNat ≤ b.blockSize) ↔ ∃ p, r = .ok p) ∧
      ∀ p, r = .ok p → ∀ a ∈ live, Disjoint (addresses (p, roundUp n.toInt.toNat)) (addresses a) := by
  have hsize := alignedSize_eq_roundUp hpos n.toInt_lt
  rw [← hsize, ← lowerBound_isSome_iff h.inv]
  cases hf : lowerBound (alignedSize n.toInt) s.blocksBySize with
  | none =>
    refine ⟨.error "Out of GPU memory", s, by simp [allocate, not_le.2 hpos, hf], by simp, ?_⟩
    intro p hp
    exact absurd hp (by simp)
  | some e =>
    obtain ⟨s', b, heq, hinv, hb, hown⟩ := allocate_granted h.inv hpos hf
    refine ⟨.ok b.ptr, s', heq, by simp, ?_⟩
    intro p hp a ha
    obtain rfl : b.ptr = p := Except.ok.inj hp
    obtain ⟨c, hc, rfl⟩ := List.mem_map.1 (h.live.mem_iff.1 ha)
    have hdisj := (hown.pairwise_iff fun hab => hab.symm).1 (owned_disjoint hinv)
    rw [← hb]
    exact (List.pairwise_cons.1 hdisj).1 c hc

/-! ## The record of live ranges -/

theorem eraseEntry_start {s s' : St} {it : Option ℕ} (h : eraseEntry s it = some s') :
    s'.cudaBufferStart = s.cudaBufferStart := by
  simp only [eraseEntry, Option.bind_eq_bind, Option.bind_eq_some_iff, Option.some.injEq] at h
  obtain ⟨_, -, _, -, rfl⟩ := h
  rfl

theorem splitIfLarger_start {s s' : St} {it : SizeEntry} {size : ℕ} (h : splitIfLarger s it size = some s') :
    s'.cudaBufferStart = s.cudaBufferStart := by
  unfold splitIfLarger at h
  split_ifs at h
  · simp only [splitBlock, Option.bind_eq_bind, Option.bind_eq_some_iff, Option.some.injEq] at h
    obtain ⟨_, -, rfl⟩ := h
    rfl
  · exact congrArg St.cudaBufferStart (Option.some.inj h).symm

theorem allocate_start {s s' : St} {n : Int64} {r : Except String ℕ} (h : allocate s n = some (r, s')) :
    s'.cudaBufferStart = s.cudaBufferStart := by
  unfold allocate at h
  split_ifs at h
  · obtain ⟨-, rfl⟩ := Prod.mk.inj (Option.some.inj h)
    rfl
  · split at h
    · obtain ⟨-, rfl⟩ := Prod.mk.inj (Option.some.inj h)
      rfl
    · simp only [Option.bind_eq_bind, Option.bind_eq_some_iff, Option.some.injEq, Prod.mk.injEq] at h
      obtain ⟨s₁, h₁, s₂, h₂, _, -, -, rfl⟩ := h
      have hsplit := splitIfLarger_start h₁
      exact (eraseEntry_start h₂).trans hsplit

theorem mergePrev_start {s s' : St} {it it' : ℕ} (h : mergePrev s it = some (s', it')) :
    s'.cudaBufferStart = s.cudaBufferStart := by
  unfold mergePrev at h
  split at h
  · exact congrArg (fun q => q.1.cudaBufferStart) (Option.some.inj h).symm
  · split_ifs at h
    · exact congrArg (fun q => q.1.cudaBufferStart) (Option.some.inj h).symm
    · simp only [Option.bind_eq_bind, Option.bind_eq_some_iff, Option.some.injEq, Prod.mk.injEq] at h
      obtain ⟨_, h₁, _, -, rfl, -⟩ := h
      have herase := eraseEntry_start h₁
      exact herase

theorem mergeNext_start {s s' : St} {it : ℕ} (h : mergeNext s it = some s') :
    s'.cudaBufferStart = s.cudaBufferStart := by
  unfold mergeNext at h
  split at h
  · exact congrArg St.cudaBufferStart (Option.some.inj h).symm
  · split_ifs at h
    · exact congrArg St.cudaBufferStart (Option.some.inj h).symm
    · simp only [Option.bind_eq_bind, Option.bind_eq_some_iff, Option.some.injEq] at h
      obtain ⟨_, h₁, rfl⟩ := h
      have herase := eraseEntry_start h₁
      exact herase

theorem deallocate_start {s s' : St} {p : ℕ} {r : Except String Unit} (h : deallocate s p = some (r, s')) :
    s'.cudaBufferStart = s.cudaBufferStart := by
  unfold deallocate at h
  split at h
  · obtain ⟨-, rfl⟩ := Prod.mk.inj (Option.some.inj h)
    rfl
  · simp only [enterFree, Option.bind_eq_bind, Option.bind_eq_some_iff, Option.some.injEq, Prod.mk.injEq] at h
    obtain ⟨⟨s₁, it⟩, h₁, s₂, h₂, _, ⟨_, -, rfl⟩, -, rfl⟩ := h
    have hprev := mergePrev_start h₁
    exact (mergeNext_start h₂).trans hprev

/-- taking back the range that starts at `p` -/
theorem filter_live {live : List Live} {l m : List BlockInfo} {b : BlockInfo} {p : ℕ}
    (hlive : live.Perm (l.map liveOf)) (hperm : l.Perm (b :: m)) (hp : b.ptr = p)
    (hnodup : (l.map BlockInfo.ptr).Nodup) : (live.filter fun a => a.1 ≠ p).Perm (m.map liveOf) := by
  have hfilter := (hlive.trans (hperm.map liveOf)).filter fun a => a.1 ≠ p
  rw [List.map_cons, List.filter_cons_of_neg (by simp [liveOf, hp])] at hfilter
  have hm : b.ptr ∉ m.map BlockInfo.ptr := (List.nodup_cons.1 ((hperm.map _).nodup_iff.1 hnodup)).1
  have hall : (m.map liveOf).filter (fun a => a.1 ≠ p) = m.map liveOf := by
    refine List.filter_eq_self.2 ?_
    intro a ha
    obtain ⟨c, hc, rfl⟩ := List.mem_map.1 ha
    have : c.ptr ≠ b.ptr := fun heq => hm (heq ▸ List.mem_map_of_mem hc)
    simpa [liveOf, ← hp] using this
  rwa [hall] at hfilter

theorem ledger_construct {free : ℕ} {percent : ℤ} {start : ℕ} {s : St}
    (h : construct free percent (some start) = .ok s) :
    Ledger start (free * percent.toNat % 2 ^ 64 / 100 - RESERVED_MEMORY) (s, []) := by
  refine ⟨inv_construct h, ?_, ?_⟩
  all_goals
    simp only [construct] at h
    split_ifs at h
    obtain rfl := Except.ok.inj h
    simp [owned]

/-- every call is defined and keeps the record in step with the blocks -/
theorem call_ledger {start bufferSize : ℕ} (c : St × List Live) (o : Op) (h : Ledger start bufferSize c) :
    ∃ c', call c o = some c' ∧ Ledger start bufferSize c' := by
  obtain ⟨s, live⟩ := c
  cases o with
  | allocate n =>
    by_cases hpos : 0 < n.toInt
    · cases hf : lowerBound (alignedSize n.toInt) s.blocksBySize with
      | none =>
        exact ⟨(s, live), by simp [call, allocate, not_le.2 hpos, hf], h⟩
      | some e =>
        obtain ⟨s', b, heq, hinv, hb, hown⟩ := allocate_granted h.inv hpos hf
        refine ⟨(s', (b.ptr, roundUp n.toInt.toNat) :: live), by simp [call, heq], hinv,
          (allocate_start heq).trans h.buffer, ?_⟩
        rw [← alignedSize_eq_roundUp hpos n.toInt_lt, ← hb]
        exact (h.live.cons _).trans (hown.map liveOf).symm
    · exact ⟨(s, live), by simp [call, allocate, not_lt.1 hpos], h⟩
  | deallocate p =>
    obtain ⟨r, s', heq, hinv, hcase⟩ := deallocate_spec h.inv p
    refine ⟨_, by simp only [call, heq, Option.map_some]; rfl, hinv, (deallocate_start heq).trans h.buffer, ?_⟩
    rcases hcase with ⟨rfl, hmiss⟩ | ⟨rfl, b, hp, hown⟩
    · cases r with
      | error m => exact h.live
      | ok _ =>
        have hkeep : (live.filter fun a => a.1 ≠ p) = live := by
          refine List.filter_eq_self.2 ?_
          intro a ha
          obtain ⟨c, hc, rfl⟩ := List.mem_map.1 (h.live.mem_iff.1 ha)
          exact decide_eq_true (hmiss c hc)
        simpa only [hkeep] using h.live
    · exact filter_live h.live hown hp (owned_nodup h.inv)

/-! ## Returning everything -/

/-- a coalesced tiling of the buffer without allocated blocks is one free block -/
theorem whole_of_no_live {start bufferSize : ℕ} {s : St} (h : Ledger start bufferSize (s, [])) (hpos : 0 < bufferSize) :
    ∃ b, s.chainedBlocks = [b] ∧ b.allocated = false ∧ b.ptr = start ∧ b.blockSize = bufferSize := by
  have hnone : owned s.chainedBlocks = [] := List.map_eq_nil_iff.1 h.live.symm.eq_nil
  have hfree : ∀ b ∈ s.chainedBlocks, b.allocated = false := by
    intro b hb
    simpa using List.filter_eq_nil_iff.1 hnone b hb
  have htiles := h.inv.tiles
  have hcoalesced := h.inv.coalesced
  have hbuffer : s.cudaBufferStart = start := h.buffer
  rcases hchain : s.chainedBlocks with _ | ⟨b, _ | ⟨c, l⟩⟩
  · simp only [hchain, Tiling.Tiles] at htiles
    omega
  · simp only [hchain, Tiling.Tiles] at htiles
    refine ⟨b, rfl, hfree b (by simp [hchain]), ?_, ?_⟩ <;> omega
  · have hb := hfree b (by simp [hchain])
    have hc := hfree c (by simp [hchain])
    rw [hchain] at hcoalesced
    have := (List.isChain_cons_cons.1 hcoalesced).1
    simp [hb, hc] at this

/-- returning the live pointers one after the other, in whatever order they stand -/
theorem return_all {start bufferSize : ℕ} (order : List ℕ) {s : St} {live : List Live}
    (h : Ledger start bufferSize (s, live)) (horder : order.Perm (live.map Prod.fst)) :
    ∃ s', Run.exec call (s, live) (order.map Op.deallocate) = some (s', []) ∧ Ledger start bufferSize (s', []) := by
  induction order generalizing s live with
  | nil =>
    obtain rfl : live = [] := List.map_eq_nil_iff.1 horder.symm.eq_nil
    exact ⟨s, rfl, h⟩
  | cons p order ih =>
    obtain ⟨⟨s₁, live₁⟩, hcall, h₁⟩ := call_ledger (s, live) (.deallocate p) h
    -- the pointer is live, so the call takes its range back
    obtain ⟨r, s₂, heq, -, hcase⟩ := deallocate_spec h.inv p
    obtain ⟨a, ha, hap⟩ := List.mem_map.1 (horder.mem_iff.1 (List.mem_cons_self (a := p)))
    obtain ⟨c, hc, rfl⟩ := List.mem_map.1 (h.live.mem_iff.1 ha)
    rcases hcase with ⟨-, hmiss⟩ | ⟨rfl, b, hp, hown⟩
    · exact absurd hap (hmiss c hc)
    have hlive : live₁ = live.filter fun a => a.1 ≠ p := by
      simp only [call, heq, Option.map_some, Option.some.injEq, Prod.mk.injEq] at hcall
      exact hcall.2.symm
    have hnodup : (live.map Prod.fst).Nodup := by
      rw [(h.live.map Prod.fst).nodup_iff, List.map_map]
      exact owned_nodup h.inv
    have hrest : order.Perm (live₁.map Prod.fst) := by
      have hfilter := horder.filter fun q => decide (q ≠ p)
      have hp : p ∉ order := (List.nodup_cons.1 (horder.nodup_iff.2 hnodup)).1
      have hself : order.filter (fun q => decide (q ≠ p)) = order :=
        List.filter_eq_self.2 fun q hq => by simpa using ne_of_mem_of_not_mem hq hp
      rw [List.filter_cons_of_neg (by simp), hself, List.filter_map] at hfilter
      rw [hlive]
      exact hfilter
    obtain ⟨s', hrun, hend⟩ := ih h₁ hrest
    exact ⟨s', by simp [Run.exec, hcall, hrun], hend⟩

/-! ## Whole runs -/

/-- **Allocation is complete and reversible.** After every run of calls on a constructed allocator:

- for every positive request, `CanAllocate` holds, a free block of the rounded size exists and `Allocate` succeeds all
  together or not at all, and the range returned is disjoint from every live range;
- returning all live pointers, in any order, leaves one free block, which is the whole buffer. -/
theorem complete_and_reversible (free : ℕ) (percent : ℤ) (start : ℕ) (s : St)
    (h : construct free percent (some start) = .ok s) (ops : List Op) :
    ∃ s' live, Run.exec call (s, []) ops = some (s', live) ∧
      (∀ n : Int64, 0 < n.toInt → ∃ r s'', allocate s' n = some (r, s'') ∧
        (canAllocate s' n = .ok true ↔
          ∃ b ∈ s'.chainedBlocks, b.allocated = false ∧ roundUp n.toInt.toNat ≤ b.blockSize) ∧
        (canAllocate s' n = .ok true ↔ ∃ p, r = .ok p) ∧
        ∀ p, r = .ok p → ∀ a ∈ live, Disjoint (addresses (p, roundUp n.toInt.toNat)) (addresses a)) ∧
      ∀ order : List ℕ, order.Perm (live.map Prod.fst) →
        ∃ s'' b, Run.exec call (s', live) (order.map Op.deallocate) = some (s'', []) ∧
          s''.chainedBlocks = [b] ∧ b.allocated = false ∧ b.ptr = start ∧
          b.blockSize = free * percent.toNat % 2 ^ 64 / 100 - RESERVED_MEMORY := by
  have hpos : 0 < free * percent.toNat % 2 ^ 64 / 100 - RESERVED_MEMORY := by
    have htiles := (inv_construct h).tiles
    simp only [construct] at h
    split_ifs at h with _ hlow
    exact Nat.sub_pos_of_lt (not_le.1 hlow)
  obtain ⟨⟨s', live⟩, hrun, hledger⟩ := Run.exec_inv call _ call_ledger (s, []) ops (ledger_construct h)
  refine ⟨s', live, hrun, ?_, ?_⟩
  · intro n hn
    obtain ⟨r, s'', heq, hiff, hdisjoint⟩ := allocate_complete hledger hn
    have hcan := canAllocate_iff hledger.inv hn
    exact ⟨r, s'', heq, hcan, hcan.trans hiff, hdisjoint⟩
  · intro order horder
    obtain ⟨s'', hreturn, hend⟩ := return_all order hledger horder
    obtain ⟨b, hchain, hfree, hptr, hsize⟩ := whole_of_no_live hend hpos
    exact ⟨s'', b, hreturn, hchain, hfree, hptr, hsize⟩

/-- three ranges of a buffer of 2048 bytes, the middle one returned and the other two as well -/
theorem complete_and_reversible_run :
    ∃ s s' live, construct 256002048 100 (some 4096) = .ok s ∧
      Run.exec call (s, []) [.allocate 100, .allocate 600, .allocate 1, .deallocate 4608] = some (s', live) ∧
      live = [(5632, 512), (4096, 512)] ∧
      ∃ s'' b, Run.exec call (s', live) [.deallocate 5632, .deallocate 4096] = some (s'', []) ∧
        s''.chainedBlocks = [b] ∧ b.blockSize = 2048 := by
  obtain ⟨s', live, hrun, -, hreturn⟩ := complete_and_reversible 256002048 100 4096 _ rfl
    [.allocate 100, .allocate 600, .allocate 1, .deallocate 4608]
  have hlive : some live = some [(5632, 512), (4096, 512)] := by
    rw [← Option.map_some (f := Prod.snd) (a := (s', live)), ← hrun]
    decide
  obtain rfl := Option.some.inj hlive
  obtain ⟨s'', b, hrun', hchain, -, -, hsize⟩ := hreturn [5632, 4096] (List.Perm.refl _)
  exact ⟨_, s', _, rfl, hrun, rfl, s'', b, hrun', hchain, hsize⟩

end QikkDB.CudaMemAllocator

/-
Which entries of the GPU memory cache a call leaves, and under which key. GetColumn adds one entry, under the key asked
for and only when there is none; ClearCachedBlock removes every entry whose key begins with the name of the block.

- `getColumn_origin`: every entry after GetColumn was there before, or is the new one.
- `clearCachedBlock_cleared`: no window of the block is left, and nothing is added.
-/
import Mathlib.Tactic
import QikkDB.Engine.GPUMemoryCache

namespace QikkDB.GPUMemoryCache

open NodeList CacheKey Decimal

/-! ## Texts between a text and its continuations -/

/-- in the order of the map the texts that begin with `p` stand together, from `p` on -/
theorem prefix_of_between {p k r : Text} (hlow : p ≤ k) (hhigh : k ≤ p ++ r) : p <+: k := by
  induction p generalizing k with
  | nil => exact List.nil_prefix
  | cons a p ih =>
    cases k with
    | nil => exact absurd hlow (not_le.2 List.Lex.nil)
    | cons b k =>
      have hab : a = b := by
        rcases lt_trichotomy a b with hlt | heq | hlt
        · exact absurd hhigh (not_le.2 (List.Lex.rel hlt))
        · exact heq
        · exact absurd hlow (not_le.2 (List.Lex.rel hlt))
      subst hab
      have hlow' : p ≤ k := not_lt.1 fun h => not_lt.2 hlow (List.Lex.cons h)
      have hhigh' : k ≤ p ++ r := not_lt.1 fun h => not_lt.2 hhigh (List.Lex.cons h)
      exact List.cons_prefix_cons.2 ⟨rfl, ih hlow' hhigh'⟩

theorem le_append (p r : Text) : p ≤ p ++ r := by
  induction p with
  | nil =>
    cases r with
    | nil => exact le_refl _
    | cons c r => exact le_of_lt List.Lex.nil
  | cons a p ih =>
    refine not_lt.1 fun h => ?_
    cases h with
    | rel h => exact lt_irrefl a h
    | cons h => exact not_lt.2 ih h

section Step

variable {bufferSize : ℕ} {s s' : St}

/-- `FindPrefix` overlooks no entry -/
theorem findPrefix_none (h : Inv bufferSize s) {p : Text} (hnone : findPrefix s p = none) :
    ∀ e ∈ s.cacheMap, ¬ p <+: e.key := by
  rintro e he ⟨r, hr⟩
  have hge : p ≤ e.key := hr ▸ le_append p r
  unfold findPrefix at hnone
  split at hnone
  · rename_i first hfirst
    split_ifs at hnone with htake
    apply htake
    obtain ⟨hp, pre, post, hsplit, hpre⟩ := List.find?_eq_some_iff_append.1 hfirst
    -- the first entry that is not before `p` is not behind `e`
    have hle : first.key ≤ e.key := by
      rw [hsplit] at he
      rcases List.mem_append.1 he with he | he
      · have := hpre e he
        simp [hge] at this
      · rcases List.mem_cons.1 he with rfl | he
        · exact le_refl _
        · have hsorted := (List.pairwise_append.1 (hsplit ▸ h.sorted)).2.1
          exact le_of_lt ((List.pairwise_cons.1 hsorted).1 e he)
    have hbegins : p <+: first.key := prefix_of_between (of_decide_eq_true hp) (hr ▸ hle)
    exact (List.prefix_iff_eq_take.1 hbegins).symm
  · rename_i hfind
    have := List.find?_eq_none.1 hfind e he
    simp [hge] at this

/-! ## ClearCachedBlock -/

theorem clearPrefix_subset {p : Text} {fuel : ℕ} {r : Except String Unit} (hclear : clearPrefix p fuel s = some (r, s')) :
    s'.cacheMap ⊆ s.cacheMap := by
  induction fuel generalizing s with
  | zero => cases hclear
  | succ fuel ih =>
    unfold clearPrefix at hclear
    split at hclear
    · obtain ⟨-, rfl⟩ := Prod.mk.inj (Option.some.inj hclear)
      exact List.Subset.refl _
    · rename_i e _
      obtain ⟨s₁, hqueue, hclear⟩ := Option.bind_eq_some_iff.1 hclear
      obtain ⟨d, -, hclear⟩ := Option.bind_eq_some_iff.1 hclear
      obtain ⟨-, -, hqueue⟩ := Option.bind_eq_some_iff.1 hqueue
      obtain rfl := Option.some.inj hqueue
      split at hclear
      · obtain ⟨-, rfl⟩ := Prod.mk.inj (Option.some.inj hclear)
        exact List.Subset.refl _
      · exact List.Subset.trans (ih hclear) (List.filter_subset_self _)

/-- what `ClearCachedBlock` leaves -/
theorem clearCachedBlock_cleared (h : Inv bufferSize s) (databaseName tableAndColumnName : Text) (blockIndex : ℤ) :
    ∃ s', clearCachedBlock s databaseName tableAndColumnName blockIndex = some (.ok (), s') ∧ Inv bufferSize s' ∧
      s'.cacheMap ⊆ s.cacheMap ∧
      ∀ e ∈ s'.cacheMap, ∀ loadSize loadOffset,
        e.key ≠ columnBlock databaseName tableAndColumnName blockIndex loadSize loadOffset := by
  obtain ⟨s', heq, hinv, hnone⟩ := clearCachedBlock_spec h databaseName tableAndColumnName blockIndex
  refine ⟨s', heq, hinv, clearPrefix_subset heq, ?_⟩
  intro e he loadSize loadOffset hkey
  apply findPrefix_none hinv hnone e he
  rw [hkey]
  exact ⟨'_' :: decimal loadSize ++ '_' :: decimal loadOffset, by simp [columnBlock]⟩

/-! ## GetColumn -/

/-- where the entries come from that GetColumn leaves, and that it adds none under a key that is there -/
theorem getColumn_origin (h : Inv bufferSize s) {sizeofT : ℕ} {databaseName tableAndColumnName : Text} {blockIndex : ℤ}
    {size : ℕ} {loadSize loadOffset : ℤ} {r : Except String (ℕ × ℕ × Bool)}
    (hget : getColumn s sizeofT databaseName tableAndColumnName blockIndex size loadSize loadOffset = some (r, s')) :
    let key := columnBlock databaseName tableAndColumnName blockIndex loadSize loadOffset
    (∀ e' ∈ s'.cacheMap, (∃ e ∈ s.cacheMap, e'.key = e.key ∧ e'.ptr = e.ptr) ∨
      (e'.key = key ∧ r = .ok (e'.ptr, size, false))) ∧
    ∀ p n, r = .ok (p, n, false) → ∀ e ∈ s.cacheMap, e.key ≠ key := by
  set n := sizeofT * size % 2 ^ 64 with hn
  intro key
  have hold : ∀ {t : St}, t.cacheMap ⊆ s.cacheMap → ∀ e' ∈ t.cacheMap,
      (∃ e ∈ s.cacheMap, e'.key = e.key ∧ e'.ptr = e.ptr) ∨ (e'.key = key ∧ r = .ok (e'.ptr, size, false)) :=
    fun hsub e' he' => Or.inl ⟨e', hsub he', rfl, rfl⟩
  cases hfind : s.cacheMap.find? fun c => c.key = key with
  | some e =>
    obtain ⟨pre, post, hsplit⟩ := List.append_of_mem (List.mem_of_find?_eq_some hfind)
    obtain ⟨s₁, htouch, -, hmap⟩ := touch_spec h hsplit
    simp only [getColumn, hfind, htouch, key] at hget
    obtain ⟨rfl, rfl⟩ := Prod.mk.inj (Option.some.inj hget)
    refine ⟨?_, by simp⟩
    intro e' he'
    rw [hmap] at he'
    simp only [List.mem_append, List.mem_cons] at he'
    rcases he' with he' | rfl | he'
    · exact Or.inl ⟨e', by simp [hsplit, he'], rfl, rfl⟩
    · exact Or.inl ⟨e, by simp [hsplit], rfl, rfl⟩
    · exact Or.inl ⟨e', by simp [hsplit, he'], rfl, rfl⟩
  | none =>
    have hmiss : ∀ e ∈ s.cacheMap, e.key ≠ key := by
      intro e he
      simpa using List.find?_eq_none.1 hfind e he
    refine ⟨?_, fun p n _ => hmiss⟩
    simp only [getColumn, hfind, key, ← hn] at hget
    split_ifs at hget with hmax
    · obtain ⟨rfl, rfl⟩ := Prod.mk.inj (Option.some.inj hget)
      exact hold (List.Subset.refl _)
    · have hlen : s.cacheMap.length < s.lruQueue.length + 1 := by
        have := h.queue.length_eq
        simp only [List.length_map] at this
        omega
      obtain ⟨r₁, s₁, hmake, h₁, hshr, hroom⟩ := makeRoom_spec h n (s.lruQueue.length + 1) hlen
      simp only [hmake, Option.bind_eq_bind, Option.bind_some] at hget
      cases r₁ with
      | error m =>
        obtain ⟨rfl, rfl⟩ := Prod.mk.inj (Option.some.inj hget)
        exact hold hshr.sublist.subset
      | ok _ =>
        obtain ⟨p, s₂, hins, -, hperm⟩ := insertBlock_spec h₁ (Nat.mod_lt _ (by norm_num)) (hroom rfl) key
          fun e he => hmiss e (hshr.sublist.subset he)
        have hins' : insertBlock s₁ (columnBlock databaseName tableAndColumnName blockIndex loadSize loadOffset) n =
            some (.ok p, s₂) := hins
        simp only [hins', Option.bind_some] at hget
        obtain ⟨rfl, rfl⟩ := Prod.mk.inj (Option.some.inj hget)
        intro e' he'
        rcases List.mem_cons.1 (hperm.mem_iff.1 he') with rfl | he'
        · exact Or.inr ⟨rfl, rfl⟩
        · exact Or.inl ⟨e', hshr.sublist.subset he', rfl, rfl⟩

end Step

end QikkDB.GPUMemoryCache

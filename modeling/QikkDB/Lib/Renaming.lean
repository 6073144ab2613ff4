/-
Renaming keys of a finite map: renamings that are meant at once, applied one after the other. The entry of a key is
taken out of the map and put in under its new key; where that key is taken, the entry is lost.

- `run_moves`, `run_loses`: when each renaming finds its new key free, every entry arrives; otherwise one is lost.
- `moved_iff`: both, for any order of the renamings.
- `inOrder_perm_iff`: all orders do exactly when no new key is an old one.
-/
import Mathlib.Tactic

namespace Renaming

variable {K C : Type*} [DecidableEq K]

/-- one renaming -/
def move (m : K → Option C) (r : K × K) : K → Option C :=
  match m r.1 with
  | none => m
  | some c =>
    let m' := Function.update m r.1 none
    match m' r.2 with
    | some _ => m'
    | none => Function.update m' r.2 (some c)

def run (m : K → Option C) (l : List (K × K)) : K → Option C := l.foldl move m

/-- the new key -/
def target (l : List (K × K)) (a : K) : K := (l.lookup a).getD a

def keys (m : K → Option C) : Set K := {k | (m k).isSome}

/-- as many entries as before, each under its new key -/
structure Moved (m : K → Option C) (l : List (K × K)) (m' : K → Option C) : Prop where
  count : (keys m').ncard = (keys m).ncard
  found : ∀ a c, m a = some c → m' (target l a) = some c

/-- the renamings of one list: different old keys that exist, different new keys -/
structure Distinct (m : K → Option C) (l : List (K × K)) : Prop where
  nodup : (l.map Prod.fst).Nodup
  exist : ∀ r ∈ l, (m r.1).isSome
  apart : l.Pairwise fun r s => r.1 ≠ r.2 → s.1 ≠ s.2 → r.2 ≠ s.2

/-- the new key is the old one, is not in the map, or has been given up -/
def Free (m : K → Option C) (done : List (K × K)) (r : K × K) : Prop :=
  r.1 = r.2 ∨ m r.2 = none ∨ ∃ s ∈ done, s.1 = r.2 ∧ s.2 ≠ r.2

/-- each renaming in its turn finds its new key free -/
def InOrder (m : K → Option C) : List (K × K) → List (K × K) → Prop
  | _, [] => True
  | done, r :: rs => Free m done r ∧ InOrder m (done ++ [r]) rs

variable {m m' : K → Option C} {l l' done : List (K × K)} {r : K × K} {a b k : K} {c : C}

/-! ## New keys -/

theorem lookup_eq_none (h : a ∉ l.map Prod.fst) : l.lookup a = none := by
  rw [List.lookup_eq_none_iff]
  intro r hr
  apply bne_iff_ne.2
  rintro rfl
  exact h (List.mem_map_of_mem hr)

theorem lookup_of_mem (hnodup : (l.map Prod.fst).Nodup) (h : (a, b) ∈ l) : l.lookup a = some b := by
  induction l with
  | nil => exact absurd h List.not_mem_nil
  | cons r l ih =>
    obtain ⟨x, y⟩ := r
    rw [List.map_cons, List.nodup_cons] at hnodup
    rw [List.lookup_cons]
    rcases List.mem_cons.1 h with heq | hmem
    · obtain ⟨rfl, rfl⟩ := Prod.mk.inj heq
      simp
    · have hax : a ≠ x := by
        rintro rfl
        exact hnodup.1 (List.mem_map.2 ⟨(a, b), hmem, rfl⟩)
      rw [beq_false_of_ne hax]
      exact ih hnodup.2 hmem

theorem target_of_notMem (h : a ∉ l.map Prod.fst) : target l a = a := by
  rw [target, lookup_eq_none h, Option.getD_none]

theorem target_of_mem (hnodup : (l.map Prod.fst).Nodup) (h : (a, b) ∈ l) : target l a = b := by
  rw [target, lookup_of_mem hnodup h, Option.getD_some]

/-- the order of the renamings does not matter for the new keys -/
theorem target_perm (h : l'.Perm l) (hnodup : (l.map Prod.fst).Nodup) (a : K) : target l' a = target l a := by
  have hnodup' : (l'.map Prod.fst).Nodup := (h.map Prod.fst).nodup_iff.2 hnodup
  by_cases ha : a ∈ l.map Prod.fst
  · obtain ⟨⟨x, b⟩, hmem, rfl⟩ := List.mem_map.1 ha
    rw [target_of_mem hnodup hmem, target_of_mem hnodup' (h.mem_iff.2 hmem)]
  · rw [target_of_notMem ha, target_of_notMem fun ha' => ha ((h.map Prod.fst).mem_iff.1 ha')]

theorem target_append (h : r.1 ∉ done.map Prod.fst) (a : K) :
    target (done ++ [r]) a = if a = r.1 then r.2 else target done a := by
  unfold target
  rw [List.lookup_append]
  by_cases ha : a = r.1
  · subst ha
    rw [lookup_eq_none h, if_pos rfl]
    rw [Option.none_or, List.lookup_cons, beq_self_eq_true]
    rfl
  · rw [if_neg ha]
    have hr : List.lookup a [r] = none := by
      rw [List.lookup_cons, beq_false_of_ne ha]
      rfl
    rw [hr]
    cases done.lookup a <;> rfl

omit [DecidableEq K] in
theorem Distinct.perm (h : Distinct m l) (hperm : l'.Perm l) : Distinct m l' where
  nodup := (hperm.map Prod.fst).nodup_iff.2 h.nodup
  exist := fun r hr => h.exist r (hperm.mem_iff.1 hr)
  apart := (hperm.pairwise_iff (fun h hr hs heq => h hs hr heq.symm)).2 h.apart

/-! ## One renaming -/

theorem move_same (r : K) : move m (r, r) = m := by
  unfold move
  cases hr : m r with
  | none => rfl
  | some c =>
    simp only [Function.update_self, Function.update_idem]
    rw [← hr, Function.update_eq_self]

theorem move_free (ha : m a = some c) (hb : m b = none) :
    move m (a, b) = Function.update (Function.update m a none) b (some c) := by
  have hne : b ≠ a := by
    rintro rfl
    rw [ha] at hb
    cases hb
  simp only [move, ha, Function.update_of_ne hne, hb]

theorem move_taken (ha : m a = some c) (hb : (m b).isSome) (hne : a ≠ b) : move m (a, b) = Function.update m a none := by
  obtain ⟨d, hd⟩ := Option.isSome_iff_exists.1 hb
  simp only [move, ha, Function.update_of_ne hne.symm, hd]

/-- other keys stay -/
theorem move_isSome (hk : k ≠ r.1) (h : (m k).isSome) : (move m r k).isSome := by
  unfold move
  cases hr : m r.1 with
  | none => exact h
  | some c =>
    simp only
    cases hb : Function.update m r.1 none r.2 with
    | some d => simpa only [Function.update_of_ne hk] using h
    | none =>
      simp only
      by_cases hkb : k = r.2
      · rw [hkb, Function.update_self]
        rfl
      · rwa [Function.update_of_ne hkb, Function.update_of_ne hk]

theorem keys_update_none (m : K → Option C) (a : K) : keys (Function.update m a none) = keys m \ {a} := by
  ext k
  by_cases hk : k = a
  · simp [keys, hk]
  · simp [keys, hk]

theorem keys_update_some (m : K → Option C) (b : K) (c : C) :
    keys (Function.update m b (some c)) = insert b (keys m) := by
  ext k
  by_cases hk : k = b
  · simp [keys, hk]
  · simp [keys, hk]

theorem move_finite (h : (keys m).Finite) (r : K × K) : (keys (move m r)).Finite := by
  unfold move
  cases hr : m r.1 with
  | none => exact h
  | some c =>
    simp only
    cases hb : Function.update m r.1 none r.2 with
    | some d =>
      rw [keys_update_none]
      exact h.sdiff
    | none =>
      rw [keys_update_some, keys_update_none]
      exact h.sdiff.insert _

/-- a renaming adds no entry -/
theorem ncard_move_le (h : (keys m).Finite) (r : K × K) : (keys (move m r)).ncard ≤ (keys m).ncard := by
  unfold move
  cases hr : m r.1 with
  | none => exact le_rfl
  | some c =>
    have hmem : r.1 ∈ keys m := by simp [keys, hr]
    have hcard : (keys m \ {r.1}).ncard + 1 = (keys m).ncard := Set.ncard_sdiff_singleton_add_one hmem h
    simp only
    cases hb : Function.update m r.1 none r.2 with
    | some d =>
      rw [keys_update_none]
      exact Nat.le_of_succ_le hcard.le
    | none =>
      rw [keys_update_some, keys_update_none, ← hcard]
      exact Set.ncard_insert_le _ _

theorem ncard_run_le (h : (keys m).Finite) (l : List (K × K)) : (keys (run m l)).ncard ≤ (keys m).ncard := by
  induction l generalizing m with
  | nil => exact le_rfl
  | cons r l ih => exact (ih (move_finite h r)).trans (ncard_move_le h r)

/-! ## Runs -/

/-- the entries of `m` are those of `m'`, each under its new key, and no two of them share it -/
structure Placed (m : K → Option C) (done : List (K × K)) (m' : K → Option C) : Prop where
  entry : ∀ k c, m' k = some c ↔ ∃ a, m a = some c ∧ target done a = k
  injective : Set.InjOn (target done) (keys m)

theorem placed_nil (m : K → Option C) : Placed m [] m :=
  ⟨fun k _ => ⟨fun h => ⟨k, h, rfl⟩, fun ⟨_, ha, hk⟩ => hk ▸ ha⟩, fun _ _ _ _ h => h⟩

theorem Placed.found (h : Placed m done m') (ha : m a = some c) : m' (target done a) = some c :=
  (h.entry _ c).2 ⟨a, ha, rfl⟩

theorem Placed.keys_eq (h : Placed m done m') : keys m' = target done '' keys m := by
  ext k
  constructor
  · intro hk
    obtain ⟨c, hc⟩ := Option.isSome_iff_exists.1 hk
    obtain ⟨a, ha, rfl⟩ := (h.entry k c).1 hc
    exact ⟨a, by simp [keys, ha], rfl⟩
  · rintro ⟨a, ha, rfl⟩
    obtain ⟨c, hc⟩ := Option.isSome_iff_exists.1 ha
    simp [keys, h.found hc]

theorem Placed.ncard_eq (h : Placed m done m') : (keys m').ncard = (keys m).ncard := by
  rw [h.keys_eq]
  exact h.injective.ncard_image

/-- a free new key is not in the map of its turn -/
theorem Placed.free (h : Placed m done m') (hdistinct : Distinct m (done ++ [r])) (hfree : Free m done r)
    (hne : r.1 ≠ r.2) : m' r.2 = none := by
  have hnodup : (done.map Prod.fst).Nodup := by
    have hall := hdistinct.nodup
    rw [List.map_append] at hall
    exact (List.nodup_append.1 hall).1
  by_contra hsome
  obtain ⟨d, hd⟩ := Option.ne_none_iff_exists'.1 hsome
  obtain ⟨x, hx, htarget⟩ := (h.entry r.2 d).1 hd
  -- the entry under the new key came from an earlier renaming, or never left
  have hgone : x = r.2 → ∃ s ∈ done, s.1 = r.2 ∧ s.2 ≠ r.2 := by
    rintro rfl
    rcases hfree with heq | hnone | hdone
    · exact absurd heq hne
    · rw [hnone] at hx
      cases hx
    · exact hdone
  by_cases hmem : x ∈ done.map Prod.fst
  · obtain ⟨⟨x, y⟩, hxy, rfl⟩ := List.mem_map.1 hmem
    rw [target_of_mem hnodup hxy] at htarget
    subst htarget
    by_cases hxr : x = r.2
    · obtain ⟨⟨s, s'⟩, hs, hs₁, hs₂⟩ := hgone hxr
      have hsx : s = x := hs₁.trans hxr.symm
      rw [hsx] at hs
      exact hs₂ ((target_of_mem hnodup hs).symm.trans (target_of_mem hnodup hxy))
    · exact (List.pairwise_append.1 hdistinct.apart).2.2 _ hxy r (List.mem_singleton_self r) hxr hne rfl
  · rw [target_of_notMem hmem] at htarget
    obtain ⟨s, hs, hs₁, -⟩ := hgone htarget
    exact hmem (htarget ▸ hs₁ ▸ List.mem_map_of_mem hs)

omit [DecidableEq K] in
/-- the old key of a renaming is still in place -/
theorem notMem_done (hdistinct : Distinct m (done ++ [r])) : r.1 ∉ done.map Prod.fst := by
  have hall := hdistinct.nodup
  rw [List.map_append] at hall
  intro hmem
  exact (List.nodup_append.1 hall).2.2 r.1 hmem r.1 (List.mem_singleton_self _) rfl

theorem Placed.step (h : Placed m done m') (hdistinct : Distinct m (done ++ [r])) (hfree : Free m done r) :
    Placed m (done ++ [r]) (move m' r) := by
  have hnot := notMem_done hdistinct
  have htarget := target_append hnot
  obtain ⟨c, hc⟩ := Option.isSome_iff_exists.1 (hdistinct.exist r (List.mem_append_right _ (List.mem_singleton_self r)))
  have hself : target done r.1 = r.1 := target_of_notMem hnot
  by_cases hne : r.1 = r.2
  · -- nothing moves
    have hsame : target (done ++ [r]) = target done := by
      funext a
      rw [htarget a]
      split
      case isTrue ha => rw [ha, hself, hne]
      case isFalse => rfl
    have hmove : move m' r = m' := by
      have hr : r = (r.1, r.1) := Prod.ext rfl hne.symm
      rw [hr]
      exact move_same r.1
    exact ⟨by rw [hsame, hmove]; exact h.entry, by rw [hsame]; exact h.injective⟩
  · have hnone : m' r.2 = none := h.free hdistinct hfree hne
    have hplaced : m' r.1 = some c := by
      have hfound := h.found hc
      rwa [hself] at hfound
    have hmove : move m' r = Function.update (Function.update m' r.1 none) r.2 (some c) := move_free hplaced hnone
    -- no other entry has the old or the new key
    have hothers : ∀ x d, m x = some d → x ≠ r.1 → target done x ≠ r.1 ∧ target done x ≠ r.2 := by
      intro x d hx hxr
      refine ⟨fun heq => hxr ?_, fun heq => ?_⟩
      · exact h.injective (by simp [keys, hx]) (by simp [keys, hc]) (heq.trans hself.symm)
      · have hfound := h.found hx
        rw [heq, hnone] at hfound
        cases hfound
    refine ⟨fun k d => ?_, ?_⟩
    · rw [hmove]
      constructor
      · intro hk
        by_cases hkb : k = r.2
        · rw [hkb, Function.update_self] at hk
          exact ⟨r.1, hc.trans hk, by rw [htarget, if_pos rfl, hkb]⟩
        · rw [Function.update_of_ne hkb] at hk
          by_cases hka : k = r.1
          · rw [hka, Function.update_self] at hk
            cases hk
          · rw [Function.update_of_ne hka] at hk
            obtain ⟨x, hx, hxk⟩ := (h.entry k d).1 hk
            refine ⟨x, hx, ?_⟩
            rw [htarget, if_neg ?_, hxk]
            rintro rfl
            exact hka (hxk.symm.trans hself)
      · rintro ⟨x, hx, rfl⟩
        rw [htarget]
        split
        case isTrue hxr =>
          rw [Function.update_self, ← hc, ← hx, hxr]
        case isFalse hxr =>
          obtain ⟨ha, hb⟩ := hothers x d hx hxr
          rw [Function.update_of_ne hb, Function.update_of_ne ha]
          exact h.found hx
    · intro x hx y hy heq
      obtain ⟨d, hd⟩ := Option.isSome_iff_exists.1 hx
      obtain ⟨e, he⟩ := Option.isSome_iff_exists.1 hy
      rw [htarget, htarget] at heq
      split at heq
      case isTrue hxr =>
        split at heq
        case isTrue hyr => rw [hxr, hyr]
        case isFalse hyr => exact absurd heq.symm (hothers y e he hyr).2
      case isFalse hxr =>
        split at heq
        case isTrue hyr => exact absurd heq (hothers x d hd hxr).2
        case isFalse => exact h.injective hx hy heq

omit [DecidableEq K] in
theorem distinct_front (h : Distinct m (done ++ r :: l)) : Distinct m (done ++ [r]) := by
  have hsub : (done ++ [r]).Sublist (done ++ r :: l) :=
    (List.Sublist.refl done).append (List.singleton_sublist.2 List.mem_cons_self)
  exact ⟨h.nodup.sublist (hsub.map Prod.fst), fun s hs => h.exist s (hsub.subset hs), h.apart.sublist hsub⟩

theorem run_moves (h : Placed m done m') (hdistinct : Distinct m (done ++ l)) (horder : InOrder m done l) :
    Placed m (done ++ l) (run m' l) := by
  induction l generalizing done m' with
  | nil => rwa [List.append_nil]
  | cons r l ih =>
    have hstep := h.step (distinct_front hdistinct) horder.1
    have hassoc : done ++ r :: l = (done ++ [r]) ++ l := by simp
    rw [hassoc] at hdistinct ⊢
    exact ih hstep hdistinct horder.2

/-- a renaming that finds its new key taken loses an entry -/
theorem Placed.loses (h : Placed m done m') (hfinite : (keys m').Finite) (hdistinct : Distinct m (done ++ [r]))
    (hfree : ¬ Free m done r) : (keys (move m' r)).ncard < (keys m').ncard := by
  unfold Free at hfree
  rw [not_or, not_or] at hfree
  obtain ⟨hne, hsome, hdone⟩ := hfree
  obtain ⟨c, hc⟩ := Option.isSome_iff_exists.1 (hdistinct.exist r (List.mem_append_right _ (List.mem_singleton_self r)))
  obtain ⟨d, hd⟩ := Option.ne_none_iff_exists'.1 hsome
  have hplaced : m' r.1 = some c := by
    have hfound := h.found hc
    rwa [target_of_notMem (notMem_done hdistinct)] at hfound
  -- the entry under the new key has not left
  have hstays : target done r.2 = r.2 := by
    unfold target
    cases hlookup : done.lookup r.2 with
    | none => rfl
    | some y =>
      by_contra hy
      obtain ⟨l₁, l₂, rfl, -⟩ := List.lookup_eq_some_iff.1 hlookup
      exact hdone ⟨(r.2, y), by simp, rfl, hy⟩
  have htaken : (m' r.2).isSome := by
    have hfound := h.found hd
    rw [hstays] at hfound
    rw [hfound]
    rfl
  have hmove : move m' r = Function.update m' r.1 none := move_taken hplaced htaken hne
  rw [hmove, keys_update_none]
  exact Set.ncard_sdiff_singleton_lt_of_mem (by simp [keys, hplaced]) hfinite

theorem run_loses (h : Placed m done m') (hfinite : (keys m').Finite) (hdistinct : Distinct m (done ++ l))
    (horder : ¬ InOrder m done l) : (keys (run m' l)).ncard < (keys m').ncard := by
  induction l generalizing done m' with
  | nil => exact absurd trivial horder
  | cons r l ih =>
    by_cases hfree : Free m done r
    · have hstep := h.step (distinct_front hdistinct) hfree
      have hassoc : done ++ r :: l = (done ++ [r]) ++ l := by simp
      rw [hassoc] at hdistinct
      have hlt := ih hstep (move_finite hfinite r) hdistinct fun hrest => horder ⟨hfree, hrest⟩
      exact hlt.trans_le (ncard_move_le hfinite r)
    · have hlt := h.loses hfinite (distinct_front hdistinct) hfree
      exact (ncard_run_le (move_finite hfinite r) l).trans_lt hlt

/-- All entries arrive exactly when each renaming finds its new key free in its turn. -/
theorem moved_iff (hfinite : (keys m).Finite) (hdistinct : Distinct m l) (hperm : l'.Perm l) :
    Moved m l (run m l') ↔ InOrder m [] l' := by
  have hdistinct' : Distinct m l' := hdistinct.perm hperm
  constructor
  · intro h
    by_contra horder
    exact (run_loses (placed_nil m) hfinite hdistinct' horder).ne h.count
  · intro horder
    have hplaced : Placed m l' (run m l') := run_moves (placed_nil m) hdistinct' horder
    refine ⟨hplaced.ncard_eq, fun a c ha => ?_⟩
    rw [← target_perm hperm hdistinct.nodup]
    exact hplaced.found ha

/-- no new key is a key -/
theorem inOrder_of_fresh (h : ∀ r ∈ l, r.1 ≠ r.2 → m r.2 = none) (done : List (K × K)) : InOrder m done l := by
  induction l generalizing done with
  | nil => trivial
  | cons r l ih =>
    refine ⟨?_, ih (fun s hs => h s (List.mem_cons_of_mem r hs)) _⟩
    by_cases hne : r.1 = r.2
    · exact Or.inl hne
    · exact Or.inr (Or.inl (h r List.mem_cons_self hne))

/-- every order finds the new keys free exactly when none of them is a key -/
theorem inOrder_perm_iff : (∀ l', l'.Perm l → InOrder m [] l') ↔ ∀ r ∈ l, r.1 ≠ r.2 → m r.2 = none := by
  constructor
  · intro h r hr hne
    obtain ⟨l₁, l₂, rfl⟩ := List.append_of_mem hr
    -- the order that begins with the renaming
    obtain ⟨heq | hnone | ⟨s, hs, -⟩, -⟩ := h (r :: (l₁ ++ l₂)) List.perm_middle.symm
    · exact absurd heq hne
    · exact hnone
    · exact absurd hs List.not_mem_nil
  · intro h l' hperm
    exact inOrder_of_fresh (fun r hr => h r (hperm.mem_iff.1 hr)) []

end Renaming

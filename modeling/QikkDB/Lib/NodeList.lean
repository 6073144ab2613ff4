/-
Lists whose elements carry a stable identity, as the nodes of a linked list or the entries of an ordered map do: an
iterator is the identity of the element it points to, and stays valid while other elements come and go.

Each operation has one equation at a list split around the element it works on (`_split`), under the assumption that
the identities of the list are pairwise distinct.
-/
import Mathlib.Tactic

namespace NodeList

variable {α : Type*} (key : α → ℕ)

/-! ## Operations -/

/-- the element an iterator points to -/
def find (k : ℕ) (l : List α) : Option α := l.find? fun a => key a = k

/-- write through an iterator -/
def update (k : ℕ) (f : α → α) (l : List α) : List α := l.map fun a => if key a = k then f a else a

def erase (k : ℕ) (l : List α) : List α := l.filter fun a => key a ≠ k

/-- insert before the successor of `k` -/
def insertAfter (k : ℕ) (x : α) : List α → List α
  | [] => [x]
  | a :: l => if key a = k then a :: x :: l else a :: insertAfter k x l

/-- the element before `k`, `none` when `k` is the first -/
def prev (k : ℕ) : List α → Option α
  | a :: b :: l => if key b = k then some a else prev k (b :: l)
  | _ => none

/-- the element after `k`, `none` when `k` is the last -/
def next (k : ℕ) : List α → Option α
  | a :: l => if key a = k then l.head? else next k l
  | [] => none

/-! ## Equations at a split list -/

section Split

variable {key} {pre post : List α} {b : α}

theorem notMem_of_nodup (h : ((pre ++ b :: post).map key).Nodup) :
    (∀ a ∈ pre, key a ≠ key b) ∧ ∀ a ∈ post, key a ≠ key b := by
  simp only [List.map_append, List.map_cons, List.nodup_append, List.nodup_cons, List.mem_map, List.mem_cons] at h
  obtain ⟨_, ⟨hpost, _⟩, hpre⟩ := h
  exact ⟨fun a ha => hpre (key a) ⟨a, ha, rfl⟩ (key b) (Or.inl rfl), fun a ha he => hpost ⟨a, ha, he⟩⟩

theorem find_split (h : ((pre ++ b :: post).map key).Nodup) : find key (key b) (pre ++ b :: post) = some b := by
  have hpre : pre.find? (fun a => key a = key b) = none := by
    rw [List.find?_eq_none]
    intro a ha
    simpa using (notMem_of_nodup h).1 a ha
  simp [find, List.find?_append, hpre]

theorem update_split (f : α → α) (h : ((pre ++ b :: post).map key).Nodup) :
    update key (key b) f (pre ++ b :: post) = pre ++ f b :: post := by
  have keep : ∀ l : List α, (∀ a ∈ l, key a ≠ key b) → (l.map fun a => if key a = key b then f a else a) = l := by
    intro l hl
    calc (l.map fun a => if key a = key b then f a else a) = l.map id :=
          List.map_congr_left fun a ha => by simp [hl a ha]
      _ = l := List.map_id l
  simp [update, keep pre (notMem_of_nodup h).1, keep post (notMem_of_nodup h).2]

theorem erase_split (h : ((pre ++ b :: post).map key).Nodup) :
    erase key (key b) (pre ++ b :: post) = pre ++ post := by
  have keep : ∀ l : List α, (∀ a ∈ l, key a ≠ key b) → l.filter (fun a => key a ≠ key b) = l := by
    intro l hl
    exact List.filter_eq_self.2 fun a ha => by simpa using hl a ha
  simp only [erase, List.filter_append, List.filter_cons, keep pre (notMem_of_nodup h).1,
    keep post (notMem_of_nodup h).2]
  simp

theorem insertAfter_split (x : α) (h : ((pre ++ b :: post).map key).Nodup) :
    insertAfter key (key b) x (pre ++ b :: post) = pre ++ b :: x :: post := by
  have hpre := (notMem_of_nodup h).1
  clear h
  induction pre with
  | nil => simp [insertAfter]
  | cons a pre ih =>
    have ha := hpre a (by simp)
    have := ih fun c hc => hpre c (List.mem_cons_of_mem a hc)
    simp [insertAfter, ha, this]

theorem prev_split (h : ((pre ++ b :: post).map key).Nodup) :
    prev key (key b) (pre ++ b :: post) = pre.getLast? := by
  have hpost := (notMem_of_nodup h).2
  have hpre := (notMem_of_nodup h).1
  clear h
  -- past `b` no element has its key, so the search runs to the end
  have miss : ∀ (l : List α) (a : α), (∀ c ∈ l, key c ≠ key b) → prev key (key b) (a :: l) = none := by
    intro l
    induction l with
    | nil => intro a _; rfl
    | cons c l ih =>
      intro a hl
      have hc := hl c (by simp)
      simpa [prev, hc] using ih c fun d hd => hl d (List.mem_cons_of_mem c hd)
  induction pre with
  | nil => simpa using miss post b hpost
  | cons a pre ih =>
    have htail := ih fun c hc => hpre c (List.mem_cons_of_mem a hc)
    cases pre with
    | nil => simp [prev]
    | cons c pre =>
      have hc := hpre c (by simp)
      simpa [prev, hc, List.getLast?_cons] using htail

theorem next_split (h : ((pre ++ b :: post).map key).Nodup) :
    next key (key b) (pre ++ b :: post) = post.head? := by
  have hpre := (notMem_of_nodup h).1
  clear h
  induction pre with
  | nil => simp [next]
  | cons a pre ih =>
    have ha := hpre a (by simp)
    have := ih fun c hc => hpre c (List.mem_cons_of_mem a hc)
    simp [next, ha, this]

/-- erasing one element of a list that is a rearrangement of `pre ++ b :: post` leaves the others -/
theorem erase_perm {l : List α} (hp : l.Perm (pre ++ b :: post)) (h : (l.map key).Nodup) :
    (erase key (key b) l).Perm (pre ++ post) := by
  have hn : ((pre ++ b :: post).map key).Nodup := (hp.map key).nodup_iff.1 h
  have := hp.filter fun a => key a ≠ key b
  rwa [show (pre ++ b :: post).filter (fun a => key a ≠ key b) = pre ++ post from erase_split hn] at this

theorem find_perm {l : List α} (hp : l.Perm (pre ++ b :: post)) (h : (l.map key).Nodup) :
    find key (key b) l = some b := by
  obtain ⟨pre', post', rfl⟩ := List.append_of_mem (hp.mem_iff.2 (by simp : b ∈ pre ++ b :: post))
  exact find_split h

end Split

/-! ## Lists that carry the same identities -/

/-- where each element of `l` has a counterpart of its own in `m` that is not lighter, `l` is not heavier than `m` -/
theorem sum_le_sum_of_key {α β : Type*} {f : α → ℕ} {g : β → ℕ} (k : α → ℕ) (k' : β → ℕ) {l : List α} {m : List β}
    (hn : (l.map k).Nodup) (h : ∀ a ∈ l, ∃ b ∈ m, k' b = k a ∧ f a ≤ g b) : (l.map f).sum ≤ (m.map g).sum := by
  induction l generalizing m with
  | nil => simp
  | cons a l ih =>
    obtain ⟨b, hb, hkey, hle⟩ := h a List.mem_cons_self
    obtain ⟨pre, post, rfl⟩ := List.append_of_mem hb
    obtain ⟨ha, hl⟩ := List.nodup_cons.1 (List.map_cons ▸ hn)
    have hrest : ∀ c ∈ l, ∃ d ∈ pre ++ post, k' d = k c ∧ f c ≤ g d := by
      intro c hc
      obtain ⟨d, hd, hdk, hdle⟩ := h c (List.mem_cons_of_mem a hc)
      refine ⟨d, ?_, hdk, hdle⟩
      rcases List.mem_append.1 hd with hd | hd
      · exact List.mem_append_left _ hd
      · rcases List.mem_cons.1 hd with rfl | hd
        · exact absurd (List.mem_map.2 ⟨c, hc, hdk.symm.trans hkey⟩) ha
        · exact List.mem_append_right _ hd
    have := ih hl hrest
    simp only [List.map_cons, List.map_append, List.sum_cons, List.sum_append] at this ⊢
    omega

end NodeList

/-
Tilings of an address range by a list of pieces, each with a start and a length, over an arbitrary type of pieces.

`Tiles start len lo l hi` says that the pieces of `l`, in order, cover [lo, hi) exactly: the first starts at lo, each
next one starts where the one before ends, none is empty and the last ends at hi.

- `tiles_append`: a tiling of a concatenation is a tiling of both parts that meet.
- `tiles_middle`: the same around one piece, the form in which a piece is split or merged.
- `tiles_start_nodup`: no two pieces of a tiling start at the same address.
- `tiles_disjoint`: no two pieces of a tiling share an address.
-/
import Mathlib

namespace Tiling

variable {α : Type*} (start len : α → ℕ)

/-- the pieces of the list cover [lo, hi) in order, without gap, overlap or empty piece -/
def Tiles : ℕ → List α → ℕ → Prop
  | lo, [], hi => lo = hi
  | lo, a :: l, hi => start a = lo ∧ 0 < len a ∧ Tiles (lo + len a) l hi

variable {start len}

theorem tiles_append {lo hi : ℕ} (l m : List α) :
    Tiles start len lo (l ++ m) hi ↔ ∃ mid, Tiles start len lo l mid ∧ Tiles start len mid m hi := by
  induction l generalizing lo with
  | nil => simp [Tiles]
  | cons a l ih =>
    simp only [List.cons_append, Tiles, ih]
    constructor
    · rintro ⟨hs, hl, mid, h₁, h₂⟩
      exact ⟨mid, ⟨hs, hl, h₁⟩, h₂⟩
    · rintro ⟨mid, ⟨hs, hl, h₁⟩, h₂⟩
      exact ⟨hs, hl, mid, h₁, h₂⟩

theorem tiles_middle {lo hi : ℕ} (l m : List α) (a : α) :
    Tiles start len lo (l ++ a :: m) hi ↔
      Tiles start len lo l (start a) ∧ 0 < len a ∧ Tiles start len (start a + len a) m hi := by
  rw [tiles_append]
  constructor
  · rintro ⟨mid, h₁, hs, hl, h₂⟩
    subst hs
    exact ⟨h₁, hl, h₂⟩
  · rintro ⟨h₁, hl, h₂⟩
    exact ⟨start a, h₁, rfl, hl, h₂⟩

theorem tiles_start_ge {lo hi : ℕ} {l : List α} (h : Tiles start len lo l hi) : ∀ a ∈ l, lo ≤ start a := by
  induction l generalizing lo with
  | nil => simp
  | cons a l ih =>
    obtain ⟨hs, hl, ht⟩ := h
    intro b hb
    rcases List.mem_cons.1 hb with rfl | hb
    · exact hs.ge
    · have := ih ht b hb
      omega

theorem tiles_start_nodup {lo hi : ℕ} {l : List α} (h : Tiles start len lo l hi) : (l.map start).Nodup := by
  induction l generalizing lo with
  | nil => simp
  | cons a l ih =>
    obtain ⟨hs, hl, ht⟩ := h
    simp only [List.map_cons, List.nodup_cons, List.mem_map, not_exists, not_and]
    refine ⟨?_, ih ht⟩
    intro b hb hba
    have := tiles_start_ge ht b hb
    omega

/-- the addresses of a piece -/
def range (start len : α → ℕ) (a : α) : Set ℕ := Set.Ico (start a) (start a + len a)

theorem tiles_disjoint {lo hi : ℕ} {l : List α} (h : Tiles start len lo l hi) :
    l.Pairwise fun a b => Disjoint (range start len a) (range start len b) := by
  induction l generalizing lo with
  | nil => exact List.Pairwise.nil
  | cons a l ih =>
    obtain ⟨hs, hl, ht⟩ := h
    refine List.pairwise_cons.2 ⟨?_, ih ht⟩
    intro b hb
    have := tiles_start_ge ht b hb
    refine Set.disjoint_left.2 ?_
    rintro x ⟨_, hxa⟩ ⟨hxb, _⟩
    omega

theorem tiles_sum {lo hi : ℕ} {l : List α} (h : Tiles start len lo l hi) : lo + (l.map len).sum = hi := by
  induction l generalizing lo with
  | nil => simpa [Tiles] using h
  | cons a l ih =>
    obtain ⟨_, _, ht⟩ := h
    have := ih ht
    simp only [List.map_cons, List.sum_cons]
    omega

end Tiling

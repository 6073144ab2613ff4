/-
Text written at a cursor that moves forward and backward over a buffer, over an arbitrary type of characters.

`Writes l c c'` says that from c to c' the text l was written: the cursor stands behind it and each of its positions has
been written once, in whatever order.

- `Writes.append`: texts written one after the other.
- `writes_backward`: a text written from its end, as the digits of a number are.
-/
import Mathlib.Tactic
import QikkDB.Lib.Scatter

namespace Cursor

open Scatter

variable {α : Type*}

/-- the position of the cursor and the writes so far -/
structure State (α : Type*) where
  pos : ℤ
  written : List (ℤ × α)

/-- chars[pos++] = a -/
def put (c : State α) (a : α) : State α := ⟨c.pos + 1, c.written ++ [(c.pos, a)]⟩

/-- chars[--pos] = a -/
def putBefore (c : State α) (a : α) : State α := ⟨c.pos - 1, c.written ++ [(c.pos - 1, a)]⟩

/-- chars[pos] = a -/
def putHere (c : State α) (a : α) : State α := ⟨c.pos, c.written ++ [(c.pos, a)]⟩

/-- pos += d -/
def move (c : State α) (d : ℤ) : State α := ⟨c.pos + d, c.written⟩

structure Writes (l : List α) (c c' : State α) : Prop where
  pos : c'.pos = c.pos + l.length
  written : c'.written.Perm (c.written ++ place c.pos l)

variable {l m : List α} {c c' c'' : State α}

/-- only one text has been written -/
theorem Writes.unique (h : Writes l c c') (h' : Writes m c c') : l = m := by
  have hperm : (place c.pos l).Perm (place c.pos m) :=
    (List.perm_append_left_iff c.written).1 (h.written.symm.trans h'.written)
  refine List.ext_getElem? fun i => ?_
  have hiff : ∀ a, l[i]? = some a ↔ m[i]? = some a := by
    intro a
    have hmem : ∀ l' : List α, (c.pos + i, a) ∈ place c.pos l' ↔ l'[i]? = some a := by
      intro l'
      rw [mem_place]
      refine ⟨?_, fun ha => ⟨i, rfl, ha⟩⟩
      rintro ⟨j, hj, ha⟩
      obtain rfl : i = j := by omega
      exact ha
    rw [← hmem, ← hmem, hperm.mem_iff]
  exact Option.ext hiff

theorem writes_nil (c : State α) : Writes [] c c := ⟨by simp, by simp [place]⟩

theorem Writes.append (h : Writes l c c') (h' : Writes m c' c'') : Writes (l ++ m) c c'' := by
  constructor
  · rw [h'.pos, h.pos, List.length_append]
    push_cast
    ring
  · refine h'.written.trans ?_
    rw [place_append, ← List.append_assoc, h.pos]
    exact h.written.append_right _

theorem writes_put (c : State α) (a : α) : Writes [a] c (put c a) := ⟨by simp [put], by simp [put, place]⟩

theorem Writes.put (h : Writes l c c') (a : α) : Writes (l ++ [a]) c (put c' a) := h.append (writes_put c' a)

theorem writes_foldl_put (l : List α) (c : State α) : Writes l c (l.foldl Cursor.put c) := by
  induction l generalizing c with
  | nil => exact writes_nil c
  | cons a l ih => exact (writes_put c a).append (ih _)

/-- a loop whose every round writes its text -/
theorem writes_foldlM {β : Type*} {f : State α → β → Option (State α)} {g : β → List α} {bs : List β}
    (h : ∀ b ∈ bs, ∀ c, ∃ c', f c b = some c' ∧ Writes (g b) c c') (c : State α) :
    ∃ c', bs.foldlM f c = some c' ∧ Writes (bs.flatMap g) c c' := by
  induction bs generalizing c with
  | nil => exact ⟨c, rfl, writes_nil c⟩
  | cons b bs ih =>
    obtain ⟨hb, hbs⟩ := List.forall_mem_cons.1 h
    obtain ⟨c₁, hstep, hw₁⟩ := hb c
    obtain ⟨c₂, hrun, hw₂⟩ := ih hbs c₁
    exact ⟨c₂, by rw [List.foldlM_cons, hstep]; exact hrun, hw₁.append hw₂⟩

theorem foldl_putBefore (l : List α) (c : State α) :
    (l.foldl putBefore c).pos = c.pos - l.length ∧
      (l.foldl putBefore c).written.Perm (c.written ++ place (c.pos - l.length) l.reverse) := by
  induction l generalizing c with
  | nil => simp [place]
  | cons a l ih =>
    obtain ⟨hpos, hwritten⟩ := ih (putBefore c a)
    have hlast : (putBefore c a).pos - l.length = c.pos - ((a :: l).length : ℕ) := by
      rw [List.length_cons]
      simp only [putBefore]
      push_cast
      ring
    rw [hlast] at hpos hwritten
    refine ⟨hpos, hwritten.trans ?_⟩
    have hend : c.pos - ((a :: l).length : ℕ) + (l.reverse.length : ℕ) = c.pos - 1 := by
      rw [List.length_reverse, List.length_cons]
      push_cast
      ring
    rw [List.reverse_cons, place_append, hend, ← List.append_assoc, putBefore, List.append_assoc, List.append_assoc]
    exact List.perm_append_comm.append_left _

/-- a text written from its end: to the end, back over it and to the end again -/
theorem writes_backward {n : ℤ} (hn : n = l.length) (c : State α) :
    Writes l c (move (l.reverse.foldl putBefore (move c n)) n) := by
  obtain ⟨hpos, hwritten⟩ := foldl_putBefore l.reverse (move c n)
  rw [List.length_reverse, List.reverse_reverse, ← hn, move, add_sub_cancel_right] at hwritten
  rw [List.length_reverse, ← hn, move, add_sub_cancel_right] at hpos
  exact ⟨by rw [move, move, hpos, hn], hwritten⟩

end Cursor

/-
Kernels that fill a fresh buffer, over an arbitrary type of values. Each row of the input writes to positions of its own
and the device chooses the order of the rows. Behind the buffer nothing may be written, and no cell may be left over.

- `fill_eq`: writes that put the values of a list at consecutive positions, in any order, leave the list.
- `kernel_eq`: rows that write one list each, behind those of the rows before, leave the lists one after the other.
- `kernel_covers`: where a kernel succeeds, some row has written each cell.
- `kernel_total`: rows that write inside of the buffer and leave no cell over fill it.
- `kernel_values`, `kernel_cells`: rows that write one value each, in the cell of the row.
-/
import Mathlib.Data.List.GetD
import Mathlib.Tactic
import QikkDB.Lib.PrefixSum

namespace Scatter

open PrefixSum

variable {α β : Type*}

/-! ## Positions -/

/-- the values of a list at consecutive positions -/
def place : ℤ → List α → List (ℤ × α)
  | _, [] => []
  | s, a :: l => (s, a) :: place (s + 1) l

@[simp] theorem length_place (s : ℤ) (l : List α) : (place s l).length = l.length := by
  induction l generalizing s with
  | nil => rfl
  | cons a l ih => simp [place, ih]

theorem place_append (s : ℤ) (l m : List α) : place s (l ++ m) = place s l ++ place (s + l.length) m := by
  induction l generalizing s with
  | nil => simp [place]
  | cons a l ih =>
    have hs : s + 1 + (l.length : ℤ) = s + ((a :: l).length : ℕ) := by
      rw [List.length_cons]
      push_cast
      ring
    simp only [List.cons_append, place, ih, hs]

theorem mem_place {s k : ℤ} {a : α} {l : List α} : (k, a) ∈ place s l ↔ ∃ i : ℕ, k = s + i ∧ l[i]? = some a := by
  induction l generalizing s with
  | nil => simp [place]
  | cons b l ih =>
    rw [place, List.mem_cons, ih]
    constructor
    · rintro (h | ⟨i, rfl, hi⟩)
      · obtain ⟨rfl, rfl⟩ := Prod.mk.inj h
        exact ⟨0, by simp, rfl⟩
      · exact ⟨i + 1, by push_cast; ring, hi⟩
    · rintro ⟨i, rfl, hi⟩
      cases i with
      | zero => exact .inl (by simpa using hi.symm)
      | succ i => exact .inr ⟨i, by push_cast; ring, hi⟩

/-- reads that give the values of a list, each written behind the one before -/
theorem mapM_place {read : ℕ → Option α} {l : List α} (start : ℕ)
    (h : ∀ j (hj : j < l.length), read j = some l[j]) :
    (List.range l.length).mapM (fun j => (read j).bind fun a => some (((start + j : ℕ) : ℤ), a)) =
      some (place start l) := by
  induction l generalizing read start with
  | nil => rfl
  | cons a l ih =>
    have h0 : read 0 = some a := h 0 (by simp)
    have htail := @ih (fun j => read (j + 1)) (start + 1) fun j hj => h (j + 1) (by simpa using hj)
    have hpos : ∀ j, start + 1 + j = start + (j + 1) := fun j => by omega
    simp only [hpos] at htail
    rw [List.length_cons, List.range_succ_eq_map, List.mapM_cons, List.mapM_map, h0, Function.comp_def]
    simp only [Nat.succ_eq_add_one, htail]
    rw [place]
    push_cast
    simp

/-! ## Buffers -/

/-- a write, which must meet the buffer; a cell is `none` until it is written -/
def write (buf : List (Option α)) (w : ℤ × α) : Option (List (Option α)) :=
  if 0 ≤ w.1 ∧ w.1 < buf.length then some (buf.set w.1.toNat (some w.2)) else none

/-- a fresh buffer after the writes, as it is read: every cell must have been written -/
def fill (size : ℕ) (ws : List (ℤ × α)) : Option (List α) :=
  (ws.foldlM write (List.replicate size none)).bind fun buf => buf.mapM id

theorem write_of_lt {buf : List (Option α)} {i : ℕ} (h : i < buf.length) (a : α) :
    write buf ((i : ℤ), a) = some (buf.set i (some a)) :=
  if_pos ⟨Int.natCast_nonneg i, Int.ofNat_lt.2 h⟩

/-- writes that agree with a list leave it in the cells they meet -/
theorem foldlM_write {l : List α} {ws : List (ℤ × α)} (buf : List (Option α)) (hlen : buf.length = l.length)
    (h : ∀ w ∈ ws, w ∈ place 0 l) :
    ∃ buf', ws.foldlM write buf = some buf' ∧ buf'.length = l.length ∧
      ∀ i < l.length, buf'[i]? = some l[i]? ∨ buf'[i]? = buf[i]? ∧ ∀ w ∈ ws, w.1 ≠ i := by
  induction ws generalizing buf with
  | nil => exact ⟨buf, rfl, hlen, fun i _ => .inr ⟨rfl, by simp⟩⟩
  | cons w ws ih =>
    obtain ⟨hw, hws⟩ := List.forall_mem_cons.1 h
    obtain ⟨k, hk, hkl⟩ := mem_place.1 (show (w.1, w.2) ∈ place 0 l from hw)
    have hlt : k < l.length := (List.getElem?_eq_some_iff.1 hkl).1
    have hstep : write buf w = some (buf.set k (some w.2)) := by
      rw [← write_of_lt (hlen ▸ hlt) w.2, ← zero_add (k : ℤ), ← hk]
    obtain ⟨buf', hrun, hlen', hcell⟩ := ih (buf.set k (some w.2)) (by rw [List.length_set, hlen]) hws
    refine ⟨buf', by rw [List.foldlM_cons, hstep]; exact hrun, hlen', fun i hi => ?_⟩
    rcases hcell i hi with heq | ⟨heq, hother⟩
    · exact .inl heq
    · by_cases hik : k = i
      · subst hik
        rw [List.getElem?_set_self (hlen ▸ hlt)] at heq
        exact .inl (heq.trans (congrArg some hkl.symm))
      · rw [List.getElem?_set_ne hik] at heq
        refine .inr ⟨heq, List.forall_mem_cons.2 ⟨fun hw => hik ?_, hother⟩⟩
        rw [hk, zero_add] at hw
        exact Int.ofNat_inj.1 hw

theorem mapM_id_map_some (l : List α) : (l.map some).mapM id = some l := by
  induction l with
  | nil => rfl
  | cons a l ih =>
    rw [List.map_cons, List.mapM_cons, ih]
    rfl

/-- the values of a list, written in any order -/
theorem fill_eq {l : List α} {ws : List (ℤ × α)} (h : ws.Perm (place 0 l)) : fill l.length ws = some l := by
  obtain ⟨buf, hrun, hlen, hcell⟩ := foldlM_write (List.replicate l.length none) (List.length_replicate ..)
    fun w hw => h.mem_iff.1 hw
  have hbuf : buf = l.map some := by
    refine List.ext_getElem? fun i => ?_
    rw [List.getElem?_map]
    by_cases hi : i < l.length
    · have hmem : ((i : ℤ), l[i]) ∈ ws :=
        h.mem_iff.2 (mem_place.2 ⟨i, (zero_add _).symm, List.getElem?_eq_getElem hi⟩)
      rcases hcell i hi with heq | ⟨-, hnone⟩
      · rw [heq, List.getElem?_eq_getElem hi]
        rfl
      · exact absurd rfl (hnone _ hmem)
    · rw [List.getElem?_eq_none (by omega), List.getElem?_eq_none (by omega)]
      rfl
  rw [fill, hrun, Option.bind_some, hbuf, mapM_id_map_some]

/-! ## Rows -/

/-- a kernel over the rows in the given order; a row fails when it reads behind a buffer -/
def kernel (size : ℕ) (order : List ℕ) (row : ℕ → Option (List (ℤ × α))) : Option (List α) :=
  (order.mapM row).bind fun ws => fill size ws.flatten

/-- lists at their places are the places of all of them together -/
theorem flatMap_place (start : ℕ) (texts : List (List α)) :
    (List.range texts.length).flatMap (fun i => place ((start + offset texts i : ℕ) : ℤ) (texts.getD i [])) =
      place start texts.flatten := by
  induction texts using List.reverseRecOn with
  | nil => rfl
  | append_singleton texts text ih =>
    have hlast : offset (texts ++ [text]) texts.length = texts.flatten.length := by
      simp [offset, List.length_flatten]
    have hinit : ∀ i ∈ List.range texts.length,
        place ((start + offset (texts ++ [text]) i : ℕ) : ℤ) ((texts ++ [text]).getD i []) =
          place ((start + offset texts i : ℕ) : ℤ) (texts.getD i []) := by
      intro i hi
      have hlt := List.mem_range.1 hi
      rw [offset, offset, List.take_append_of_le_length hlt.le, List.getD_append _ _ _ _ hlt]
    rw [List.length_append, List.length_singleton, List.range_succ, List.flatMap_append, List.flatMap_congr hinit, ih,
      List.flatMap_singleton, hlast, List.flatten_append, List.flatten_singleton, place_append]
    simp

/-- rows that write a list each leave the lists one after the other, whatever their order -/
theorem kernel_eq {texts : List (List α)} {order : List ℕ} (horder : order.Perm (List.range texts.length))
    {row : ℕ → Option (List (ℤ × α))} {size : ℕ} (hsize : size = texts.flatten.length)
    (h : ∀ i < texts.length, ∃ ws, row i = some ws ∧ ws.Perm (place (offset texts i) (texts.getD i []))) :
    kernel size order row = some texts.flatten := by
  have hrow : ∀ i ∈ order, row i = some ((row i).getD []) ∧
      ((row i).getD []).Perm (place (offset texts i) (texts.getD i [])) := by
    intro i hi
    obtain ⟨ws, hws, hperm⟩ := h i (List.mem_range.1 (horder.mem_iff.1 hi))
    rw [hws]
    exact ⟨rfl, hperm⟩
  have hall : (order.map fun i => (row i).getD []).flatten.Perm (place 0 texts.flatten) := by
    have hplace := flatMap_place 0 texts
    simp only [Nat.zero_add, Nat.cast_zero] at hplace
    rw [← List.flatMap_def, ← hplace]
    exact (List.Perm.flatMap_left order fun i hi => (hrow i hi).2).trans (horder.flatMap_right _)
  rw [kernel, Traverse.mapM_some fun i hi => (hrow i hi).1, Option.bind_some, hsize, fill_eq hall]

/-- a cell that has changed has been written -/
theorem foldlM_write_cell {ws : List (ℤ × α)} {buf buf' : List (Option α)} (h : ws.foldlM write buf = some buf') {k : ℕ}
    (hk : ∀ w ∈ ws, w.1 ≠ k) : buf'[k]? = buf[k]? := by
  induction ws generalizing buf with
  | nil => exact congrArg (·[k]?) (Option.some.inj h).symm
  | cons w ws ih =>
    obtain ⟨hw, hws⟩ := List.forall_mem_cons.1 hk
    rw [List.foldlM_cons] at h
    obtain ⟨buf₁, hstep, hrun⟩ := Option.bind_eq_some_iff.1 h
    obtain ⟨hrange, hset⟩ := Option.ite_none_right_eq_some.1 hstep
    rw [ih hrun hws, ← Option.some.inj hset]
    refine List.getElem?_set_ne fun heq => hw ?_
    rw [← heq, Int.toNat_of_nonneg hrange.1]

/-- no cell of the buffer is left over -/
theorem kernel_covers {size : ℕ} {order : List ℕ} {row : ℕ → Option (List (ℤ × α))} {l : List α}
    (h : kernel size order row = some l) {k : ℕ} (hk : k < size) :
    ∃ i ∈ order, ∃ ws, row i = some ws ∧ ∃ a, ((k : ℤ), a) ∈ ws := by
  obtain ⟨wss, hrows, hfill⟩ := Option.bind_eq_some_iff.1 h
  obtain ⟨buf, hrun, hread⟩ := Option.bind_eq_some_iff.1 hfill
  by_contra hno
  have hnot : ∀ w ∈ wss.flatten, w.1 ≠ k := by
    intro w hw heq
    obtain ⟨ws, hws, hw⟩ := List.mem_flatten.1 hw
    obtain ⟨i, hi, hrow⟩ := Traverse.mem_of_mapM hrows hws
    exact hno ⟨i, hi, ws, hrow, w.2, by rw [← heq]; exact hw⟩
  have hcell := foldlM_write_cell hrun hnot
  rw [List.getElem?_replicate_of_lt hk] at hcell
  have hnone : buf.mapM id = none := Traverse.mapM_none (List.mem_of_getElem? hcell) rfl
  rw [hnone] at hread
  cases hread

/-- writes inside of a buffer do not fail, and written cells stay written -/
theorem foldlM_write_total {ws : List (ℤ × α)} (buf : List (Option α)) (h : ∀ w ∈ ws, 0 ≤ w.1 ∧ w.1 < buf.length) :
    ∃ buf', ws.foldlM write buf = some buf' ∧ buf'.length = buf.length ∧
      ∀ k : ℕ, (∃ a, buf[k]? = some (some a)) ∨ (∃ w ∈ ws, w.1 = k) → ∃ a, buf'[k]? = some (some a) := by
  induction ws generalizing buf with
  | nil => exact ⟨buf, rfl, rfl, fun k hk => hk.elim id fun ⟨w, hw, _⟩ => absurd hw List.not_mem_nil⟩
  | cons w ws ih =>
    obtain ⟨hw, hws⟩ := List.forall_mem_cons.1 h
    have hlen : (buf.set w.1.toNat (some w.2)).length = buf.length := List.length_set
    obtain ⟨buf', hrun, hlen', hcells⟩ := ih (buf.set w.1.toNat (some w.2)) (by rwa [hlen])
    refine ⟨buf', by rw [List.foldlM_cons, write, if_pos hw]; exact hrun, hlen'.trans hlen, fun k hk => hcells k ?_⟩
    by_cases hkw : w.1.toNat = k
    · left
      rw [hkw, List.getElem?_set_self (by omega)]
      exact ⟨w.2, rfl⟩
    · rw [List.getElem?_set_ne hkw]
      refine hk.imp_right fun ⟨v, hv, hvk⟩ => ?_
      rcases List.mem_cons.1 hv with rfl | hv
      · exact absurd (by rw [hvk, Int.toNat_natCast]) hkw
      · exact ⟨v, hv, hvk⟩

/-- rows that write inside of the buffer and leave no cell over fill it -/
theorem kernel_total {size : ℕ} {order : List ℕ} {row : ℕ → Option (List (ℤ × α))}
    (h : ∀ i ∈ order, ∃ ws, row i = some ws ∧ ∀ w ∈ ws, 0 ≤ w.1 ∧ w.1 < size)
    (hcover : ∀ k < size, ∃ i ∈ order, ∀ ws, row i = some ws → ∃ w ∈ ws, w.1 = k) :
    ∃ l, kernel size order row = some l := by
  have hrow : ∀ i ∈ order, row i = some ((row i).getD []) := by
    intro i hi
    obtain ⟨ws, hws, -⟩ := h i hi
    rw [hws]
    rfl
  obtain ⟨buf, hrun, hlen, hcells⟩ := @foldlM_write_total _ (order.map fun i => (row i).getD []).flatten
    (List.replicate size none) fun w hw => by
      obtain ⟨ws, hws, hw⟩ := List.mem_flatten.1 hw
      obtain ⟨i, hi, rfl⟩ := List.mem_map.1 hws
      obtain ⟨ws', hws', hrange⟩ := h i hi
      rw [hws'] at hw
      rw [List.length_replicate]
      exact hrange w hw
  rw [List.length_replicate] at hlen
  have hread : ∀ c ∈ buf, ∃ a, c = some a := by
    intro c hc
    obtain ⟨k, hk, rfl⟩ := List.getElem_of_mem hc
    obtain ⟨i, hi, hwritten⟩ := hcover k (hlen ▸ hk)
    obtain ⟨w, hw, hwk⟩ := hwritten _ (hrow i hi)
    obtain ⟨a, ha⟩ := hcells k (Or.inr ⟨w, List.mem_flatten.2 ⟨_, List.mem_map_of_mem hi, hw⟩, hwk⟩)
    exact ⟨a, Option.some.inj ((List.getElem?_eq_getElem hk).symm.trans ha)⟩
  have hall : ∃ l, buf.mapM id = some l := by
    cases size with
    | zero => exact ⟨[], by rw [List.length_eq_zero_iff.1 hlen]; rfl⟩
    | succ n =>
      obtain ⟨a, -⟩ := hread (buf.get ⟨0, by omega⟩) (List.get_mem buf _)
      refine ⟨buf.map fun c => c.getD a, Traverse.mapM_some fun c hc => ?_⟩
      obtain ⟨b, rfl⟩ := hread c hc
      rfl
  obtain ⟨l, hl⟩ := hall
  refine ⟨l, ?_⟩
  rw [kernel, Traverse.mapM_some hrow, Option.bind_some, fill, hrun, Option.bind_some, hl]

/-! ## One value for each row -/

theorem flatten_singletons (l : List α) : (l.map fun a => [a]).flatten = l := by
  induction l with
  | nil => rfl
  | cons a l ih => rw [List.map_cons, List.flatten_cons, ih]; rfl

theorem offset_singletons (l : List α) (k : ℕ) : offset (l.map fun a => [a]) k = (l.take k).length := by
  rw [offset, ← List.map_take, ← List.length_flatten, flatten_singletons]

/-- rows that write one value each, in the cell of the row -/
theorem kernel_values {l : List α} {order : List ℕ} (horder : order.Perm (List.range l.length))
    {row : ℕ → Option (List (ℤ × α))} (h : ∀ i (hi : i < l.length), row i = some [((i : ℤ), l[i])]) :
    kernel l.length order row = some l := by
  have hflat := flatten_singletons l
  have hker := @kernel_eq _ (l.map fun a => [a]) order (by rwa [List.length_map]) row l.length (by rw [hflat])
    fun i hi => by
      rw [List.length_map] at hi
      refine ⟨[((i : ℤ), l[i])], h i hi, ?_⟩
      rw [offset_singletons, List.length_take, Nat.min_eq_left hi.le, List.getD_eq_getElem _ _ (by rwa [List.length_map]),
        List.getElem_map]
      exact List.Perm.refl _
  rw [hker, hflat]

theorem kernel_cells {l : List α} {order : List ℕ} (horder : order.Perm (List.range l.length)) {value : ℕ → Option α}
    (h : ∀ i (hi : i < l.length), value i = some l[i]) :
    kernel l.length order (fun i => do
      let a ← value i
      some [((i : ℤ), a)]) = some l :=
  kernel_values horder fun i hi => by rw [h i hi]; rfl

end Scatter

/-
Next-fit packing: items go, in order, into the bin being filled while they fit, and into a new bin otherwise.

- `pack_flatten`: the bins hold the items in order.
- `pack_fits`: no bin is filled past its capacity.
- `bins_dropLast_of_lastAlone`: where the last item is alone in a bin behind another, that bin cannot be spared.
-/
import Mathlib.Tactic

namespace Packing

variable {α : Type*} (size : α → ℕ) (capacity : ℕ)

/-- the items that still go into the bin in use, and the bins behind it -/
def pack : ℕ → List α → List α × List (List α)
  | _, [] => ([], [])
  | used, x :: xs =>
    if used + size x ≤ capacity then
      let rest := pack (used + size x) xs
      (x :: rest.1, rest.2)
    else
      let rest := pack (size x) xs
      ([], (x :: rest.1) :: rest.2)

/-- all bins of a list of items that starts a bin; none for no items -/
def bins (xs : List α) : List (List α) :=
  if xs.isEmpty then [] else
    let packed := pack size capacity 0 xs
    packed.1 :: packed.2

/-- the last of the bins behind the first has one item -/
def endsAlone (behind : List (List α)) : Bool :=
  match behind.getLast? with
  | some [_] => true
  | _ => false

/-- the last item is alone in a bin behind the first -/
def lastAlone (xs : List α) : Bool := endsAlone (pack size capacity 0 xs).2

/-- the size of a bin's items -/
def total (xs : List α) : ℕ := (xs.map size).sum

@[simp] theorem total_nil : total size ([] : List α) = 0 := rfl

@[simp] theorem total_cons (x : α) (xs : List α) : total size (x :: xs) = size x + total size xs := by
  simp [total]

theorem total_const {w : ℕ} {xs : List α} (h : ∀ x ∈ xs, size x = w) : total size xs = w * xs.length := by
  induction xs with
  | nil => rfl
  | cons x xs ih =>
    rw [total_cons, h x List.mem_cons_self, ih fun y hy => h y (List.mem_cons_of_mem x hy), List.length_cons]
    ring

theorem length_le_total {xs : List α} (h : ∀ x ∈ xs, 0 < size x) : xs.length ≤ total size xs := by
  induction xs with
  | nil => exact Nat.zero_le _
  | cons x xs ih =>
    have hx := h x List.mem_cons_self
    have hrest := ih fun y hy => h y (List.mem_cons_of_mem x hy)
    rw [total_cons, List.length_cons]
    omega

theorem pack_flatten (used : ℕ) (xs : List α) :
    (pack size capacity used xs).1 ++ (pack size capacity used xs).2.flatten = xs := by
  induction xs generalizing used with
  | nil => rfl
  | cons x xs ih =>
    simp only [pack]
    split_ifs
    · rw [List.cons_append, ih]
    · rw [List.nil_append, List.flatten_cons, List.cons_append, ih]

/-- the bin in use takes items from the front -/
theorem pack_append_drop (used : ℕ) (xs : List α) :
    (pack size capacity used xs).1 ++ xs.drop (pack size capacity used xs).1.length = xs :=
  List.prefix_iff_eq_append.1 ⟨_, pack_flatten size capacity used xs⟩

theorem bins_flatten (xs : List α) : (bins size capacity xs).flatten = xs := by
  cases xs with
  | nil => rfl
  | cons x xs => exact pack_flatten size capacity 0 (x :: xs)

/-- no bin is filled past its capacity -/
theorem pack_fits (used : ℕ) (xs : List α) (hused : used ≤ capacity) (hxs : ∀ x ∈ xs, size x ≤ capacity) :
    used + total size (pack size capacity used xs).1 ≤ capacity ∧
      ∀ bin ∈ (pack size capacity used xs).2, total size bin ≤ capacity := by
  induction xs generalizing used with
  | nil => simpa [pack] using hused
  | cons x xs ih =>
    have hx := hxs x (by simp)
    have hrest : ∀ y ∈ xs, size y ≤ capacity := fun y hy => hxs y (by simp [hy])
    simp only [pack]
    split_ifs with hfit
    · obtain ⟨h₁, h₂⟩ := ih (used + size x) hfit hrest
      exact ⟨by rw [total_cons]; omega, h₂⟩
    · obtain ⟨h₁, h₂⟩ := ih (size x) hx hrest
      refine ⟨by simpa using hused, ?_⟩
      intro bin hbin
      rcases List.mem_cons.1 hbin with rfl | hbin
      · rwa [total_cons]
      · exact h₂ bin hbin

theorem bins_fit (xs : List α) (hxs : ∀ x ∈ xs, size x ≤ capacity) :
    ∀ bin ∈ bins size capacity xs, total size bin ≤ capacity := by
  obtain ⟨h₁, h₂⟩ := pack_fits size capacity 0 xs (Nat.zero_le _) hxs
  intro bin hbin
  unfold bins at hbin
  split_ifs at hbin
  · simp at hbin
  · rcases List.mem_cons.1 hbin with rfl | hbin
    · simpa using h₁
    · exact h₂ bin hbin

/-- what does not go into the bin in use is packed anew -/
theorem pack_behind (used : ℕ) (xs : List α) (hxs : ∀ x ∈ xs, size x ≤ capacity) :
    (pack size capacity used xs).2 = bins size capacity (xs.drop (pack size capacity used xs).1.length) := by
  induction xs generalizing used with
  | nil => rfl
  | cons x xs ih =>
    have hrest : ∀ y ∈ xs, size y ≤ capacity := fun y hy => hxs y (List.mem_cons_of_mem x hy)
    simp only [pack]
    split_ifs
    · exact ih (used + size x) hrest
    · simp [bins, pack, hxs x List.mem_cons_self]

/-- the bins of a list are its first bin and the bins of the rest -/
theorem bins_eq {xs : List α} (hne : xs ≠ []) (hxs : ∀ x ∈ xs, size x ≤ capacity) :
    bins size capacity xs =
      (pack size capacity 0 xs).1 :: bins size capacity (xs.drop (pack size capacity 0 xs).1.length) := by
  rw [← pack_behind size capacity 0 xs hxs, bins, if_neg (by simpa using hne)]

/-- the packing depends on the sizes only -/
theorem pack_map {β : Type*} (f : β → α) (used : ℕ) (xs : List β) :
    pack size capacity used (xs.map f) =
      ((pack (fun x => size (f x)) capacity used xs).1.map f, (pack (fun x => size (f x)) capacity used xs).2.map (List.map f)) := by
  induction xs generalizing used with
  | nil => rfl
  | cons x xs ih =>
    simp only [List.map_cons, pack]
    split_ifs
    · simp only [ih, List.map_cons]
    · simp only [ih, List.map_cons, List.map_nil]

theorem bins_map {β : Type*} (f : β → α) (xs : List β) :
    bins size capacity (xs.map f) = (bins (fun x => size (f x)) capacity xs).map (List.map f) := by
  unfold bins
  rw [List.isEmpty_map, pack_map]
  split_ifs <;> rfl

/-- items of one size -/
theorem pack_const {w : ℕ} (hw : 0 < w) (used : ℕ) (xs : List α) (hused : used ≤ capacity) (hxs : ∀ x ∈ xs, size x = w) :
    (pack size capacity used xs).1 = xs.take ((capacity - used) / w) := by
  induction xs generalizing used with
  | nil => simp [pack]
  | cons x xs ih =>
    have hrest : ∀ y ∈ xs, size y = w := fun y hy => hxs y (List.mem_cons_of_mem x hy)
    simp only [pack, hxs x List.mem_cons_self]
    split_ifs with hfit
    · have hdiv : (capacity - used) / w = (capacity - (used + w)) / w + 1 := by
        rw [Nat.div_eq_sub_div hw (by omega), Nat.sub_sub]
      rw [hdiv, List.take_succ_cons, ih (used + w) hfit hrest]
    · rw [Nat.div_eq_of_lt (by omega), List.take_zero]

/-- the bins a packing leaves behind the one in use all hold an item -/
theorem pack_ne_nil (used : ℕ) (xs : List α) : ∀ bin ∈ (pack size capacity used xs).2, bin ≠ [] := by
  induction xs generalizing used with
  | nil => simp [pack]
  | cons x xs ih =>
    simp only [pack]
    split_ifs
    · exact ih (used + size x)
    · intro bin hbin
      rcases List.mem_cons.1 hbin with rfl | hbin
      · simp
      · exact ih (size x) bin hbin

theorem bins_ne_nil {xs : List α} (hxs : ∀ x ∈ xs, size x ≤ capacity) : ∀ bin ∈ bins size capacity xs, bin ≠ [] := by
  cases xs with
  | nil => simp [bins]
  | cons x xs =>
    intro bin hbin
    rcases List.mem_cons.1 hbin with rfl | hbin
    · simp [pack, hxs x List.mem_cons_self]
    · exact pack_ne_nil size capacity 0 (x :: xs) bin hbin

theorem endsAlone_cons (bin : List α) (behind : List (List α)) (h : behind ≠ []) :
    endsAlone (bin :: behind) = endsAlone behind := by
  cases behind with
  | nil => exact absurd rfl h
  | cons next behind => simp [endsAlone, List.getLast?_cons_cons]

theorem toNat_endsAlone_le (behind : List (List α)) : (endsAlone behind).toNat ≤ behind.length := by
  cases behind with
  | nil => simp [endsAlone]
  | cons bin behind => exact (Bool.toNat_le _).trans (by simp)

/-- without its last bin, a packing whose last item is alone is short of that item -/
theorem bins_dropLast_of_lastAlone (xs : List α) (h : lastAlone size capacity xs = true) :
    (bins size capacity xs).dropLast.flatten ≠ xs := by
  obtain ⟨front, x, hbehind⟩ : ∃ front x, (pack size capacity 0 xs).2 = front ++ [[x]] := by
    unfold lastAlone endsAlone at h
    split at h
    · rename_i x hlast
      exact ⟨_, x, (List.dropLast_append_getLast? [x] hlast).symm⟩
    · simp at h
  have hne : xs ≠ [] := by
    rintro rfl
    simp [pack] at hbehind
  have hbins : bins size capacity xs = ((pack size capacity 0 xs).1 :: front) ++ [[x]] := by
    simp [bins, hne, hbehind]
  intro heq
  have hlen := congrArg List.length (bins_flatten size capacity xs)
  rw [hbins, List.dropLast_concat] at heq
  rw [hbins, List.flatten_append, List.length_append, heq] at hlen
  simp at hlen

end Packing

/-
Readers that take one item after the other from the front of a text, and texts that are cut into pieces, each of which
has a reader of its own.

- `read_places`, `read_pairwise`: the items lie in the text, one behind the other.
- `read_append`: two pieces are read as one text if no item lies across the cut.
- `readPieces_eq`: the same for any number of pieces.
- `not_across_of_mem`: an item that is read in a piece lies across no cut.
-/
import Mathlib.Tactic

namespace Pieces

variable {α ρ : Type*}

/-- takes an item from the front of a text; `cut`: an item that ends before a cut is also found without the text behind
the cut -/
structure Reader (α ρ : Type*) where
  next : List α → Option (ρ × List α)
  consumes : ∀ {x r y}, next x = some (r, y) → ∃ p, p ≠ [] ∧ x = p ++ y
  cut : ∀ {x y r z}, next (x ++ y) = some (r, z) → y.length ≤ z.length → ∃ w, next x = some (r, w) ∧ z = w ++ y
  cut_none : ∀ {x y}, next (x ++ y) = none → next x = none ∧ next y = none

/-- an item with its place in the text -/
structure Placed (ρ : Type*) where
  start : ℕ
  stop : ℕ
  item : ρ
deriving DecidableEq

variable (R : Reader α ρ)

/-- at most `n` items of a text that begins at `c` -/
def readUpTo : ℕ → ℕ → List α → List (Placed ρ)
  | 0, _, _ => []
  | n + 1, c, x =>
    match R.next x with
    | none => []
    | some (r, y) => ⟨c, c + (x.length - y.length), r⟩ :: readUpTo n (c + (x.length - y.length)) y

/-- the items of a text that begins at `c` -/
def read (c : ℕ) (x : List α) : List (Placed ρ) := readUpTo R x.length c x

/-- the items of pieces that follow one another from `c` on, each piece with a reader of its own -/
def readPieces : ℕ → List (List α) → List (Placed ρ)
  | _, [] => []
  | c, x :: xs => read R c x ++ readPieces (c + x.length) xs

variable {R}

theorem length_lt {x y : List α} {r : ρ} (h : R.next x = some (r, y)) : y.length < x.length := by
  obtain ⟨p, hp, rfl⟩ := R.consumes h
  have := List.length_pos_iff.2 hp
  rw [List.length_append]
  omega

theorem next_nil : R.next [] = none := by
  cases h : R.next [] with
  | none => rfl
  | some v => exact absurd (length_lt (r := v.1) (y := v.2) h) (Nat.not_lt_zero _)

theorem readUpTo_of_length_le {n : ℕ} {x : List α} (h : x.length ≤ n) (c : ℕ) : readUpTo R n c x = read R c x := by
  unfold read
  induction n using Nat.strong_induction_on generalizing x c with
  | _ n ih =>
    cases n with
    | zero => rw [Nat.le_zero.1 h]
    | succ n =>
      cases hx : x.length with
      | zero =>
        rw [List.length_eq_zero_iff.1 hx]
        simp [readUpTo, next_nil]
      | succ m =>
        cases hr : R.next x with
        | none => simp [readUpTo, hr]
        | some v =>
          obtain ⟨r, y⟩ := v
          have hlt := length_lt hr
          simp only [readUpTo, hr]
          rw [ih n (by omega) (by omega), ih m (by omega) (by omega)]

theorem read_of_none {x : List α} (h : R.next x = none) (c : ℕ) : read R c x = [] := by
  unfold read
  cases x.length <;> simp [readUpTo, h]

theorem read_of_some {x y : List α} {r : ρ} (h : R.next x = some (r, y)) (c : ℕ) :
    read R c x = ⟨c, c + (x.length - y.length), r⟩ :: read R (c + (x.length - y.length)) y := by
  have hlt := length_lt h
  obtain ⟨n, hn⟩ : ∃ n, x.length = n + 1 := ⟨x.length - 1, by omega⟩
  unfold read
  rw [hn]
  simp only [readUpTo, h]
  rw [readUpTo_of_length_le (by omega), hn, read]

theorem read_eq_nil {x : List α} {c : ℕ} : read R c x = [] ↔ R.next x = none := by
  cases h : R.next x with
  | none => simp [read_of_none h]
  | some v => simp [read_of_some (r := v.1) (y := v.2) h]

/-! ## Places -/

theorem read_places (c : ℕ) (x : List α) :
    ∀ p ∈ read R c x, c ≤ p.start ∧ p.start < p.stop ∧ p.stop ≤ c + x.length := by
  induction hn : x.length using Nat.strong_induction_on generalizing c x with
  | _ n ih =>
    intro p hp
    cases h : R.next x with
    | none => simp [read_of_none h] at hp
    | some v =>
      obtain ⟨r, y⟩ := v
      have hlt := length_lt h
      rw [read_of_some h] at hp
      rcases List.mem_cons.1 hp with rfl | hp
      · simp only
        omega
      · have := ih y.length (by omega) _ y rfl p hp
        omega

theorem read_pairwise (c : ℕ) (x : List α) : (read R c x).Pairwise fun p p' => p.stop ≤ p'.start := by
  induction hn : x.length using Nat.strong_induction_on generalizing c x with
  | _ n ih =>
    cases h : R.next x with
    | none => simp [read_of_none h]
    | some v =>
      obtain ⟨r, y⟩ := v
      rw [read_of_some h, List.pairwise_cons]
      exact ⟨fun p hp => (read_places _ y p hp).1, ih y.length (by have := length_lt h; omega) _ y rfl⟩

theorem nodup_read (c : ℕ) (x : List α) : (read R c x).Nodup := by
  refine (read_pairwise c x).imp_of_mem ?_
  rintro p p' hp - hle rfl
  have := (read_places c x p hp).2.1
  omega

/-- the first item begins where the text does -/
theorem start_of_mem_head {c : ℕ} {x : List α} {p : Placed ρ} (h : p ∈ (read R c x).head?) : p.start = c := by
  cases hr : R.next x with
  | none => simp [read_of_none hr] at h
  | some v =>
    rw [read_of_some (r := v.1) (y := v.2) hr] at h
    simp only [List.head?_cons, Option.mem_def, Option.some.injEq] at h
    rw [← h]

/-! ## Cuts -/

/-- the item lies across the place `b` -/
def Across (b : ℕ) (p : Placed ρ) : Prop := p.start < b ∧ b < p.stop

instance (b : ℕ) (p : Placed ρ) : Decidable (Across b p) := inferInstanceAs (Decidable (_ ∧ _))

theorem read_append (c : ℕ) (x y : List α) (h : ∀ p ∈ read R c (x ++ y), ¬ Across (c + x.length) p) :
    read R c (x ++ y) = read R c x ++ read R (c + x.length) y := by
  induction hn : x.length using Nat.strong_induction_on generalizing c x with
  | _ n ih =>
    cases hr : R.next (x ++ y) with
    | none =>
      obtain ⟨hx, hy⟩ := R.cut_none hr
      rw [read_of_none hr, read_of_none hx, read_of_none hy, List.nil_append]
    | some v =>
      obtain ⟨r, z⟩ := v
      have hlt := length_lt hr
      rw [List.length_append] at hlt
      rw [read_of_some hr] at h
      have hfirst := h _ List.mem_cons_self
      simp only [Across, List.length_append] at hfirst
      rcases Nat.eq_zero_or_pos x.length with hzero | hpos
      · rw [List.length_eq_zero_iff.1 hzero, ← hn, hzero]
        simp [read_of_none next_nil]
      · -- the item ends before the cut, so the piece has it too
        obtain ⟨w, hw, rfl⟩ := R.cut hr (by omega)
        have hwx := length_lt hw
        rw [List.length_append] at h hlt
        have hsame : x.length + y.length - (w.length + y.length) = x.length - w.length := by omega
        rw [read_of_some hr, read_of_some hw, List.length_append, List.length_append, hsame]
        have hrest := ih w.length (by omega) (c + (x.length - w.length)) w ?_ rfl
        · rw [hrest, List.cons_append]
          congr 3
          omega
        · intro p hp
          have := h p (by
            rw [List.length_append, hsame]
            exact List.mem_cons_of_mem _ hp)
          have hc : c + (x.length - w.length) + w.length = c + x.length := by omega
          rw [hc]
          exact this

/-- where the pieces behind the first begin -/
def cuts : ℕ → List (List α) → List ℕ
  | _, [] => []
  | _, [_] => []
  | c, x :: y :: xs => (c + x.length) :: cuts (c + x.length) (y :: xs)

theorem readPieces_eq (c : ℕ) (xs : List (List α))
    (h : ∀ b ∈ cuts c xs, ∀ p ∈ read R c xs.flatten, ¬ Across b p) : readPieces R c xs = read R c xs.flatten := by
  induction xs generalizing c with
  | nil => simp [readPieces, read_of_none next_nil]
  | cons x xs ih =>
    cases xs with
    | nil => simp [readPieces]
    | cons y xs =>
      have hsplit : (x :: y :: xs).flatten = x ++ (y :: xs).flatten := List.flatten_cons
      have hcut := read_append c x (y :: xs).flatten fun p hp => h _ List.mem_cons_self p (hsplit ▸ hp)
      rw [hsplit, hcut, readPieces, ih (c + x.length)]
      intro b hb p hp
      refine h b (List.mem_cons_of_mem _ hb) p ?_
      rw [hsplit, hcut]
      exact List.mem_append_right _ hp

theorem cuts_bounds (c : ℕ) (xs : List (List α)) : ∀ b ∈ cuts c xs, c ≤ b := by
  induction xs generalizing c with
  | nil => simp [cuts]
  | cons x xs ih =>
    cases xs with
    | nil => simp [cuts]
    | cons y xs =>
      intro b hb
      rcases List.mem_cons.1 hb with rfl | hb
      · omega
      · have := ih _ b hb
        omega

theorem readPieces_places (c : ℕ) (xs : List (List α)) :
    ∀ p ∈ readPieces R c xs, c ≤ p.start ∧ p.start < p.stop := by
  induction xs generalizing c with
  | nil => simp [readPieces]
  | cons x xs ih =>
    intro p hp
    rcases List.mem_append.1 hp with hp | hp
    · exact ⟨(read_places c x p hp).1, (read_places c x p hp).2.1⟩
    · have := ih _ p hp
      omega

theorem not_across_of_mem (c : ℕ) (xs : List (List α)) :
    ∀ b ∈ cuts c xs, ∀ p ∈ readPieces R c xs, ¬ Across b p := by
  induction xs generalizing c with
  | nil => simp [cuts]
  | cons x xs ih =>
    cases xs with
    | nil => simp [cuts]
    | cons y xs =>
      rintro b hb p hp ⟨hstart, hstop⟩
      rcases List.mem_append.1 hp with hp | hp
      · -- the item is in the first piece, and the cut is not before its end
        have hplace := read_places c x p hp
        rcases List.mem_cons.1 hb with rfl | hb
        · omega
        · have := cuts_bounds _ _ b hb
          omega
      · rcases List.mem_cons.1 hb with rfl | hb
        · have := readPieces_places _ _ p hp
          omega
        · exact ih _ b hb p hp ⟨hstart, hstop⟩

/-! ## Pieces between borders -/

/-- the part of a text between two borders that follow one another -/
def part (x : List α) (B : ℕ → ℕ) (i : ℕ) : List α := (x.drop (B i)).take (B (i + 1) - B i)

def parts (x : List α) (B : ℕ → ℕ) (i n : ℕ) : List (List α) := (List.range' i n).map (part x B)

section Parts

variable {x : List α} {B : ℕ → ℕ} (hB : Monotone B)

theorem parts_succ (i n : ℕ) : parts x B i (n + 1) = part x B i :: parts x B (i + 1) n := rfl

include hB in
theorem flatten_parts (i n : ℕ) :
    (parts x B i n).flatten = (x.drop (B i)).take (B (i + n) - B i) := by
  induction n generalizing i with
  | zero => simp [parts]
  | succ n ih =>
    have h₁ : B i ≤ B (i + 1) := hB (by omega)
    have h₂ : B (i + 1) ≤ B (i + 1 + n) := hB (by omega)
    have hsum : B (i + (n + 1)) - B i = (B (i + 1) - B i) + (B (i + 1 + n) - B (i + 1)) := by
      rw [show i + (n + 1) = i + 1 + n by omega]
      omega
    rw [parts_succ, List.flatten_cons, ih, hsum, List.take_add, List.drop_drop, part]
    congr 4
    omega

theorem length_part (hx : ∀ i, B i ≤ x.length) (i : ℕ) : (part x B i).length = B (i + 1) - B i := by
  have h₂ := hx (i + 1)
  rw [part, List.length_take, List.length_drop]
  omega

include hB in
theorem cuts_parts (hx : ∀ i, B i ≤ x.length) (i n : ℕ) :
    cuts (B i) (parts x B i (n + 1)) = (List.range' (i + 1) n).map B := by
  induction n generalizing i with
  | zero => rfl
  | succ n ih =>
    have h₁ : B i ≤ B (i + 1) := hB (by omega)
    rw [parts_succ, parts_succ, cuts, length_part hx, Nat.add_sub_cancel' h₁, ← parts_succ, ih]
    rfl

include hB in
theorem readPieces_parts (hx : ∀ i, B i ≤ x.length) (i n : ℕ) :
    readPieces R (B i) (parts x B i n) = (List.range' i n).flatMap fun j => read R (B j) (part x B j) := by
  induction n generalizing i with
  | zero => rfl
  | succ n ih =>
    have h₁ : B i ≤ B (i + 1) := hB (by omega)
    rw [parts_succ, readPieces, length_part hx, Nat.add_sub_cancel' h₁, ih]
    rfl

end Parts

end Pieces

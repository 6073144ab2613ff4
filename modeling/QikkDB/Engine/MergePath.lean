/-
The merge-path search of the merge join (QueryEngine/GPUCore/GPUMergeJoin.cuh): two sorted blocks A and B, the matrix
M[a, b] = A[a] > B[b], and on each diagonal a + b = d of it the point where the merge path crosses. A first kernel finds
the points of every W-th diagonal, each by W threads that search overlapping parts of it; a second one starts from them
and finds the points of all diagonals.

A block is device memory in which [0, size) belongs to the array; what lies around it is arbitrary. A search returns
what it reads of the two arrays and the point it writes.

- `search_eq`: the loop of both kernels is a bisection of a part of a diagonal.
- `reads_iff`: the reads stay in the arrays exactly if the blocks lie beside each other, or one has a single row.
-/
import QikkDB.Lib.Bisection

namespace QikkDB.MergePath

open Bisection (Move bisect mid)

/-! ## Model -/

/-- a read of an array -/
inductive Read where
  | a (index : ℤ)
  | b (index : ℤ)
  deriving DecidableEq, Repr

/-- two blocks, A sorted and B strictly sorted, neither empty -/
structure Blocks (T : Type*) [LinearOrder T] where
  colABlock : ℤ → T
  colBBlock : ℤ → T
  colABlockSize : ℤ
  colBBlockSize : ℤ
  sizeA_pos : 1 ≤ colABlockSize
  sizeB_pos : 1 ≤ colBBlockSize
  sortedA : ∀ i j, 0 ≤ i → i ≤ j → j < colABlockSize → colABlock i ≤ colABlock j
  sortedB : ∀ i j, 0 ≤ i → i < j → j < colBBlockSize → colBBlock i < colBBlock j

variable {T : Type*} [LinearOrder T]

/-- one iteration of the loop of both kernels at (aMid, bMid): the reads, and what becomes of the interval of a -/
def visit (x : Blocks T) (aMid bMid : ℤ) : List Read × Move :=
  if aMid ≥ x.colABlockSize ∧ bMid ≥ x.colBBlockSize then ([], .giveUp)
  else if aMid ≥ x.colABlockSize ∧ bMid < x.colBBlockSize then ([], .below)
  else if aMid < x.colABlockSize ∧ bMid ≥ x.colBBlockSize then ([], .above)
  else if x.colABlock aMid > x.colBBlock bMid ∧ (aMid = 0 ∨ bMid = x.colBBlockSize - 1) then
    ([.a aMid, .b bMid], .found)
  else if x.colABlock aMid ≤ x.colBBlock bMid ∧ (aMid = x.colABlockSize - 1 ∨ bMid = 0) then
    ([.a aMid, .b bMid], .found)
  else if x.colABlock aMid > x.colBBlock (bMid - 1) then
    if x.colABlock (aMid - 1) ≤ x.colBBlock bMid then ([.a aMid, .b bMid, .b (bMid - 1), .a (aMid - 1)], .found)
    else ([.a aMid, .b bMid, .b (bMid - 1), .a (aMid - 1)], .below)
  else ([.a aMid, .b bMid, .b (bMid - 1)], .above)

/-- the loop of both kernels: the reads, and the point written -/
def search (x : Blocks T) (aBeg aEnd bBeg bEnd : ℤ) : List Read × Option (ℤ × ℤ) :=
  if _ : aBeg ≤ aEnd ∧ bBeg ≤ bEnd then
    match visit x (aBeg + (aEnd - aBeg) / 2) (bEnd - (bEnd - bBeg) / 2) with
    | (reads, .giveUp) => (reads, none)
    | (reads, .found) => (reads, some (aBeg + (aEnd - aBeg) / 2, bEnd - (bEnd - bBeg) / 2))
    | (reads, .below) =>
      let rest := search x aBeg (aBeg + (aEnd - aBeg) / 2 - 1) (bEnd - (bEnd - bBeg) / 2 + 1) bEnd
      (reads ++ rest.1, rest.2)
    | (reads, .above) =>
      let rest := search x (aBeg + (aEnd - aBeg) / 2 + 1) aEnd bBeg (bEnd - (bEnd - bBeg) / 2 - 1)
      (reads ++ rest.1, rest.2)
  else ([], none)
termination_by (aEnd + 1 - aBeg).toNat
decreasing_by all_goals omega

/-- a size rounded up to the width of a thread block -/
def rounded (size W : ℤ) : ℤ := (size + W - 1) / W * W

/-- iteration `i` of kernel_partition_input, which writes entry `i / W` of the diagonal indices -/
def kernelPartitionInput (x : Blocks T) (W i : ℤ) : List Read × Option (ℤ × ℤ) :=
  let colABlockSizeRounded := rounded x.colABlockSize W
  let colBBlockSizeRounded := rounded x.colBBlockSize W
  let aBeg := if i < colBBlockSizeRounded then i % W else W + i - colBBlockSizeRounded
  let aEnd := if i < colABlockSizeRounded then i else colABlockSizeRounded - W + i % W
  let bBeg := if i < colABlockSizeRounded then W - i % W - 1
    else (W + i - colABlockSizeRounded) / W * W + (W - i % W - 1)
  let bEnd := if i < colBBlockSizeRounded then i / W * W + (W - i % W - 1)
    else colBBlockSizeRounded - W + (W - i % W - 1)
  search x aBeg aEnd bBeg bEnd

def diagonalCountRounded (x : Blocks T) (W : ℤ) : ℤ := rounded x.colABlockSize W + rounded x.colBBlockSize W - 1

/-- iteration `i` of kernel_find_merge_path -/
def kernelFindMergePath (x : Blocks T) (W : ℤ) (diagonalAIndices diagonalBIndices : ℤ → ℤ) (i : ℤ) :
    List Read × Option (ℤ × ℤ) :=
  let diagIdx := (i + 1) / W
  let baseIdxA := if diagIdx = 0 then 0 else diagonalAIndices (diagIdx - 1)
  let baseIdxB := if diagIdx = 0 then 0 else diagonalBIndices (diagIdx - 1)
  let width := if diagIdx = 0 then i % W else (i + 1) % W
  search x baseIdxA (baseIdxA + width) baseIdxB (baseIdxB + width)

def diagonalCount (x : Blocks T) : ℤ := x.colABlockSize + x.colBBlockSize - 1

/-- iterations of kernel_partition_input that write entry `k` the value `p` -/
def Writes (x : Blocks T) (W k : ℤ) (p : ℤ × ℤ) : Prop :=
  ∃ i, 0 ≤ i ∧ i < diagonalCountRounded x W ∧ i / W = k ∧ (kernelPartitionInput x W i).2 = some p

/-- what the diagonal indices hold after kernel_partition_input, in whatever order its threads run: each array has one
of the values written to an entry; an entry that is not written has any value -/
structure Stored (x : Blocks T) (W : ℤ) (diagonalAIndices diagonalBIndices : ℤ → ℤ) : Prop where
  a : ∀ k p, Writes x W k p → ∃ q, Writes x W k q ∧ diagonalAIndices k = q.1
  b : ∀ k p, Writes x W k p → ∃ q, Writes x W k q ∧ diagonalBIndices k = q.2

def InRange (x : Blocks T) : Read → Prop
  | .a index => 0 ≤ index ∧ index < x.colABlockSize
  | .b index => 0 ≤ index ∧ index < x.colBBlockSize

/-- no thread of the two kernels reads outside of the arrays -/
def ReadsInRange (x : Blocks T) (W : ℤ) : Prop :=
  (∀ i, 0 ≤ i → i < diagonalCountRounded x W → ∀ r ∈ (kernelPartitionInput x W i).1, InRange x r) ∧
  ∀ diagonalAIndices diagonalBIndices, Stored x W diagonalAIndices diagonalBIndices →
    ∀ i, 0 ≤ i → i < diagonalCount x →
      ∀ r ∈ (kernelFindMergePath x W diagonalAIndices diagonalBIndices i).1, InRange x r

/-! ## The search on one diagonal -/

/-- what the loop makes of the interval at point `a` of diagonal `d` -/
def move (x : Blocks T) (d a : ℤ) : Move := (visit x a (d - a)).2

def readsAt (x : Blocks T) (d a : ℤ) : List Read := (visit x a (d - a)).1

/-- one turn of the loop, with both middles from one point of the diagonal -/
theorem search_step (x : Blocks T) (d : ℤ) {lo hi : ℤ} (h : lo ≤ hi) :
    search x lo hi (d - hi) (d - lo) =
      match move x d (mid lo hi) with
      | .giveUp => (readsAt x d (mid lo hi), none)
      | .found => (readsAt x d (mid lo hi), some (mid lo hi, d - mid lo hi))
      | .below =>
        (readsAt x d (mid lo hi) ++ (search x lo (mid lo hi - 1) (d - (mid lo hi - 1)) (d - lo)).1,
          (search x lo (mid lo hi - 1) (d - (mid lo hi - 1)) (d - lo)).2)
      | .above =>
        (readsAt x d (mid lo hi) ++ (search x (mid lo hi + 1) hi (d - hi) (d - (mid lo hi + 1))).1,
          (search x (mid lo hi + 1) hi (d - hi) (d - (mid lo hi + 1))).2) := by
  have ha : lo + (hi - lo) / 2 = mid lo hi := rfl
  have hb : d - lo - (d - lo - (d - hi)) / 2 = d - mid lo hi := by
    unfold mid
    omega
  have hvisit : visit x (mid lo hi) (d - mid lo hi) = (readsAt x d (mid lo hi), move x d (mid lo hi)) := rfl
  have hbelow : d - mid lo hi + 1 = d - (mid lo hi - 1) := by ring
  have habove : d - mid lo hi - 1 = d - (mid lo hi + 1) := by ring
  rw [search, dif_pos (by omega), ha, hb, hvisit, hbelow, habove]
  cases move x d (mid lo hi) <;> rfl

theorem search_eq (x : Blocks T) {d aBeg aEnd bBeg bEnd : ℤ} (h₁ : aBeg + bEnd = d) (h₂ : aEnd + bBeg = d) :
    search x aBeg aEnd bBeg bEnd =
      ((bisect (move x d) aBeg aEnd).1.flatMap (readsAt x d),
        (bisect (move x d) aBeg aEnd).2.map fun a => (a, d - a)) := by
  obtain rfl : bEnd = d - aBeg := by omega
  obtain rfl : bBeg = d - aEnd := by omega
  clear h₁ h₂
  induction aBeg, aEnd using Bisection.bisect.induct (move x d) with
  | case1 lo hi h _ _ hm =>
    rw [search_step x d h, Bisection.bisect_giveUp h hm, hm]
    simp
  | case2 lo hi h _ _ hm =>
    rw [search_step x d h, Bisection.bisect_found h hm, hm]
    simp
  | case3 lo hi h _ _ hm ih =>
    rw [search_step x d h, Bisection.bisect_below h hm, hm]
    simp [ih]
  | case4 lo hi h _ _ hm ih =>
    rw [search_step x d h, Bisection.bisect_above h hm, hm]
    simp [ih]
  | case5 lo hi h =>
    rw [search, dif_neg (by omega), Bisection.bisect_of_lt (not_le.1 h)]
    rfl

/-! ## Single points -/

section Points

variable (x : Blocks T) {a b : ℤ}

theorem Blocks.monoB {i j : ℤ} (h₀ : 0 ≤ i) (h : i ≤ j) (hj : j < x.colBBlockSize) :
    x.colBBlock i ≤ x.colBBlock j := by
  rcases h.eq_or_lt with rfl | hlt
  · exact le_refl _
  · exact (x.sortedB i j h₀ hlt hj).le

/-- the path has not reached `a` yet: A[a] is not above B[b - 1] -/
theorem visit_above (ha : a < x.colABlockSize - 1) (hb : 1 ≤ b)
    (h : b < x.colBBlockSize → x.colABlock a ≤ x.colBBlock (b - 1)) :
    (visit x a b).2 = .above ∧ (0 ≤ a → ∀ r ∈ (visit x a b).1, InRange x r) := by
  by_cases hin : b < x.colBBlockSize
  · have hle := h hin
    have hless : x.colABlock a ≤ x.colBBlock b := hle.trans (x.monoB (by omega) (by omega) hin)
    have hvisit : visit x a b = ([.a a, .b b, .b (b - 1)], .above) := by
      rw [visit, if_neg (by omega), if_neg (by omega), if_neg (by omega), if_neg (fun h => absurd hless (not_le.2 h.1)),
        if_neg (by omega), if_neg (not_lt.2 hle)]
    rw [hvisit]
    refine ⟨rfl, ?_⟩
    intro ha₀ r hr
    simp only [List.mem_cons, List.not_mem_nil, or_false] at hr
    rcases hr with rfl | rfl | rfl <;> simp only [InRange] <;> omega
  · have hvisit : visit x a b = ([], .above) := by
      rw [visit, if_neg (by omega), if_neg (by omega), if_pos (by omega)]
    rw [hvisit]
    exact ⟨rfl, by simp⟩

/-- the path has passed `a`: A[a - 1] is above B[b] -/
theorem visit_below (ha : 1 ≤ a) (hb : b < x.colBBlockSize - 1)
    (h : a < x.colABlockSize → 1 ≤ b ∧ x.colBBlock b < x.colABlock (a - 1)) :
    (visit x a b).2 = .below ∧ ∀ r ∈ (visit x a b).1, InRange x r := by
  by_cases hin : a < x.colABlockSize
  · obtain ⟨hb₁, hlt⟩ := h hin
    have hmore : x.colBBlock b < x.colABlock a := hlt.trans_le (x.sortedA _ _ (by omega) (by omega) hin)
    have hmore' : x.colBBlock (b - 1) < x.colABlock a := (x.monoB (by omega) (by omega) (by omega)).trans_lt hmore
    have hvisit : visit x a b = ([.a a, .b b, .b (b - 1), .a (a - 1)], .below) := by
      rw [visit, if_neg (by omega), if_neg (by omega), if_neg (by omega), if_neg (by omega),
        if_neg (fun h => absurd h.1 (not_le.2 hmore)), if_pos hmore', if_neg (not_le.2 hlt)]
    rw [hvisit]
    refine ⟨rfl, ?_⟩
    intro r hr
    simp only [List.mem_cons, List.not_mem_nil, or_false] at hr
    rcases hr with rfl | rfl | rfl | rfl <;> simp only [InRange] <;> omega
  · have hvisit : visit x a b = ([], .below) := by
      rw [visit, if_neg (by omega), if_pos (by omega)]
    rw [hvisit]
    exact ⟨rfl, by simp⟩

/-- a point on the border that the path leaves there -/
theorem visit_border (ha₀ : 0 ≤ a) (ha : a < x.colABlockSize) (hb₀ : 0 ≤ b) (hb : b < x.colBBlockSize)
    (h : x.colBBlock b < x.colABlock a ∧ (a = 0 ∨ b = x.colBBlockSize - 1) ∨
      x.colABlock a ≤ x.colBBlock b ∧ (a = x.colABlockSize - 1 ∨ b = 0)) :
    (visit x a b).2 = .found ∧ ∀ r ∈ (visit x a b).1, InRange x r := by
  have hvisit : visit x a b = ([.a a, .b b], .found) := by
    rw [visit, if_neg (by omega), if_neg (by omega), if_neg (by omega)]
    split_ifs with h₁ h₂
    · rfl
    · rfl
    · exact absurd h (by rintro (h | h); exacts [h₁ h, h₂ h])
    · exact absurd h (by rintro (h | h); exacts [h₁ h, h₂ h])
    · exact absurd h (by rintro (h | h); exacts [h₁ h, h₂ h])
  rw [hvisit]
  refine ⟨rfl, ?_⟩
  intro r hr
  simp only [List.mem_cons, List.not_mem_nil, or_false] at hr
  rcases hr with rfl | rfl <;> simp only [InRange] <;> omega

/-- both tests of the borders miss the lower end of a row: B[-1] is read -/
theorem visit_under (ha : 1 ≤ a) (ha' : a < x.colABlockSize) (hb : 2 ≤ x.colBBlockSize)
    (h : x.colBBlock 0 < x.colABlock a) : Read.b (-1) ∈ (visit x a 0).1 := by
  rw [visit, if_neg (by omega), if_neg (by omega), if_neg (by omega), if_neg (by omega),
    if_neg (fun h' => absurd h'.1 (not_le.2 h))]
  split_ifs <;> simp

/-- both tests of the borders miss the upper end of a column: A[-1] is read -/
theorem visit_left (ha : 2 ≤ x.colABlockSize) (hb : 1 ≤ b) (hb' : b < x.colBBlockSize)
    (h : x.colABlock 0 ≤ x.colBBlock b) (h' : x.colBBlock (b - 1) < x.colABlock 0) :
    Read.a (-1) ∈ (visit x 0 b).1 := by
  rw [visit, if_neg (by omega), if_neg (by omega), if_neg (by omega), if_neg (fun h'' => absurd h (not_le.2 h''.1)),
    if_neg (by omega), if_pos h']
  split_ifs <;> simp

/-- a point found lies in the matrix -/
theorem found_inside (h : (visit x a b).2 = .found) : a < x.colABlockSize ∧ b < x.colBBlockSize := by
  unfold visit at h
  split_ifs at h <;> omega

end Points

/-! ## The threads of a diagonal -/

section Threads

variable (x : Blocks T) {W : ℤ} (hW : 1 ≤ W)

/-- the diagonal that iteration `i` of the partition searches -/
def diagonalOf (W i : ℤ) : ℤ := i / W * W + (W - 1)

/-- the part of the diagonal that iteration `i` searches -/
def partBeg (W i : ℤ) : ℤ :=
  if i < rounded x.colBBlockSize W then i % W else W + i - rounded x.colBBlockSize W

def partEnd (W i : ℤ) : ℤ :=
  if i < rounded x.colABlockSize W then i else rounded x.colABlockSize W - W + i % W

include hW in
theorem mul_gap {p q : ℤ} (h : p * W < q * W) : p * W + W ≤ q * W := by
  have hlt : p < q := lt_of_mul_lt_mul_right h (by omega)
  calc p * W + W = (p + 1) * W := by ring
    _ ≤ q * W := mul_le_mul_of_nonneg_right hlt (by omega)

include hW in
theorem rounded_bounds (n : ℤ) : n ≤ rounded n W ∧ rounded n W < n + W := by
  have hdiv := Int.emod_add_mul_ediv (n + W - 1) W
  have hmod₀ := Int.emod_nonneg (n + W - 1) (show W ≠ 0 by omega)
  have hmod := Int.emod_lt_of_pos (n + W - 1) (show 0 < W by omega)
  rw [mul_comm] at hdiv
  unfold rounded
  constructor <;> omega

include hW in
/-- a rounded size is a multiple of the width, so that a number is below it together with its whole group -/
theorem group_lt_rounded {n : ℤ} (k : ℤ) : k * W < rounded n W → k * W + W ≤ rounded n W :=
  mul_gap hW

include hW in
theorem kernelPartitionInput_eq {i : ℤ} :
    kernelPartitionInput x W i =
      ((bisect (move x (diagonalOf W i)) (partBeg x W i) (partEnd x W i)).1.flatMap (readsAt x (diagonalOf W i)),
        (bisect (move x (diagonalOf W i)) (partBeg x W i) (partEnd x W i)).2.map
          fun a => (a, diagonalOf W i - a)) := by
  have hdiv := Int.emod_add_mul_ediv i W
  rw [mul_comm] at hdiv
  simp only [kernelPartitionInput]
  refine search_eq x ?_ ?_
  · simp only [diagonalOf]
    split_ifs <;> omega
  · simp only [diagonalOf]
    split_ifs with hA
    · omega
    · have hround : (W + i - rounded x.colABlockSize W) / W * W = i / W * W + W - rounded x.colABlockSize W := by
        have hsum : W + i - rounded x.colABlockSize W = i + (1 - (x.colABlockSize + W - 1) / W) * W := by
          unfold rounded
          ring
        rw [hsum, Int.add_mul_ediv_right _ _ (by omega), rounded]
        ring
      omega

include hW in
/-- the parts of the threads of a group cover their diagonal -/
theorem cover {k a : ℤ} (hk : 0 ≤ k) (hd : k * W + (W - 1) ≤ x.colABlockSize + x.colBBlockSize - 2) (ha₀ : 0 ≤ a)
    (ha : a < x.colABlockSize) (hb₀ : 0 ≤ k * W + (W - 1) - a) (hb : k * W + (W - 1) - a < x.colBBlockSize) :
    ∃ i, 0 ≤ i ∧ i < diagonalCountRounded x W ∧ i / W = k ∧ diagonalOf W i = k * W + (W - 1) ∧
      partBeg x W i ≤ a ∧ a ≤ partEnd x W i := by
  obtain ⟨hA, hA'⟩ := rounded_bounds hW x.colABlockSize
  obtain ⟨hB, hB'⟩ := rounded_bounds hW x.colBBlockSize
  have hgapA := @group_lt_rounded W hW x.colABlockSize k
  have hgapB := @group_lt_rounded W hW x.colBBlockSize k
  have hgap : k * W + W < rounded x.colABlockSize W + rounded x.colBBlockSize W →
      k * W + W + W ≤ rounded x.colABlockSize W + rounded x.colBBlockSize W := by
    have := @mul_gap W hW (k + 1) ((x.colABlockSize + W - 1) / W + (x.colBBlockSize + W - 1) / W)
    rwa [add_mul, add_mul, one_mul] at this
  have hWA := @mul_gap W hW 0 ((x.colABlockSize + W - 1) / W)
  have hWB := @mul_gap W hW 0 ((x.colBBlockSize + W - 1) / W)
  rw [zero_mul] at hWA hWB
  change 0 < rounded x.colABlockSize W → 0 + W ≤ rounded x.colABlockSize W at hWA
  change 0 < rounded x.colBBlockSize W → 0 + W ≤ rounded x.colBBlockSize W at hWB
  have hposA := x.sizeA_pos
  have hposB := x.sizeB_pos
  have hkW : 0 ≤ k * W := mul_nonneg hk (by omega)
  -- the first thread whose part reaches up to `a`
  obtain ⟨e, he⟩ : ∃ e, e = if k * W < rounded x.colABlockSize W then k * W else rounded x.colABlockSize W - W :=
    ⟨_, rfl⟩
  obtain ⟨r, hr⟩ : ∃ r, r = max 0 (a - e) := ⟨_, rfl⟩
  have hr₀ : 0 ≤ r := by omega
  have hrW : r < W := by
    split_ifs at he <;> omega
  have hquot : (k * W + r) / W = k := by
    rw [add_comm, Int.add_mul_ediv_right _ _ (by omega), Int.ediv_eq_zero_of_lt hr₀ hrW, zero_add]
  have hmod : (k * W + r) % W = r := by
    rw [add_comm, Int.add_mul_emod_self_right, Int.emod_eq_of_lt hr₀ hrW]
  refine ⟨k * W + r, by omega, ?_, hquot, by rw [diagonalOf, hquot], ?_, ?_⟩
  · unfold diagonalCountRounded
    omega
  · rw [partBeg, hmod]
    split_ifs at he ⊢ <;> omega
  · rw [partEnd, hmod]
    split_ifs at he ⊢ <;> omega

include hW in
theorem part_bounds (i : ℤ) : 0 ≤ partBeg x W i ∧ partEnd x W i ≤ diagonalOf W i := by
  have hdiv := Int.emod_add_mul_ediv i W
  rw [mul_comm] at hdiv
  have hmod₀ := Int.emod_nonneg i (show W ≠ 0 by omega)
  have hmod := Int.emod_lt_of_pos i (show 0 < W by omega)
  simp only [partBeg, partEnd, diagonalOf]
  constructor <;> split_ifs <;> omega

/-! ## Where the path crosses a diagonal -/

/-- the point of a diagonal towards which every other point of it points, the lower end of the row apart -/
structure Crossing (d a : ℤ) : Prop where
  row : 0 ≤ a ∧ a < x.colABlockSize
  col : 0 ≤ d - a ∧ d - a < x.colBBlockSize
  found : move x d a = .found
  before : ∀ m, 0 ≤ m → m < a → move x d m = .above
  behind : ∀ m, a < m → m < d → move x d m = .below

variable {x}

include hW in
/-- some thread of the group writes the crossing -/
theorem Crossing.writes {k a : ℤ} (h : Crossing x (k * W + (W - 1)) a) (hk : 0 ≤ k)
    (hd : k * W + (W - 1) ≤ x.colABlockSize + x.colBBlockSize - 2) : Writes x W k (a, k * W + (W - 1) - a) := by
  obtain ⟨i, hi, hlt, hquot, hdiag, hbeg, hend⟩ := cover x hW hk hd h.row.1 h.row.2 h.col.1 h.col.2
  obtain ⟨hlo, hhi⟩ := part_bounds x hW i
  rw [hdiag] at hhi
  refine ⟨i, hi, hlt, hquot, ?_⟩
  rw [kernelPartitionInput_eq x hW, hdiag]
  have hfound := (Bisection.reaches hbeg hend (fun m h₁ h₂ => h.before m (by omega) h₂)
    (fun m h₁ h₂ => h.behind m h₁ (by omega))).2 h.found
  rw [hfound]
  rfl

include hW in
/-- what is written is the crossing, if no thread of the group visits the lower end of the row behind it -/
theorem Crossing.eq_of_writes {k a : ℤ} (h : Crossing x (k * W + (W - 1)) a)
    (hend : a < k * W + (W - 1) → k * W + (W - 1) < x.colABlockSize → ∀ i, 0 ≤ i → i < diagonalCountRounded x W →
      i / W = k → k * W + (W - 1) ∉ (bisect (move x (k * W + (W - 1))) (partBeg x W i) (partEnd x W i)).1)
    {p : ℤ × ℤ} (hp : Writes x W k p) : p = (a, k * W + (W - 1) - a) := by
  obtain ⟨i, hi, hlt, hquot, hfound⟩ := hp
  have hdiag : diagonalOf W i = k * W + (W - 1) := by rw [diagonalOf, hquot]
  obtain ⟨hlo, hhi⟩ := part_bounds x hW i
  rw [kernelPartitionInput_eq x hW, hdiag] at hfound
  rw [hdiag] at hhi
  obtain ⟨m, hm, rfl⟩ := Option.map_eq_some_iff.1 hfound
  obtain ⟨hmem, hmove⟩ := Bisection.found_mem hm
  obtain ⟨hm₀, hm₁⟩ := Bisection.visits_mem_range m hmem
  rcases lt_trichotomy m a with hlt' | rfl | hgt
  · exact absurd (hmove.symm.trans (h.before m (by omega) hlt')) (by decide)
  · rfl
  · rcases (show m < k * W + (W - 1) ∨ m = k * W + (W - 1) by omega) with hin | heq
    · exact absurd (hmove.symm.trans (h.behind m hgt hin)) (by decide)
    · have hinside := found_inside x hmove
      exact absurd (heq ▸ hmem) (hend (heq ▸ hgt) (by omega) i hi hlt hquot)

include hW in
/-- the diagonal indices of a group then are those of the crossing -/
theorem Crossing.stored {k a : ℤ} (h : Crossing x (k * W + (W - 1)) a) (hk : 0 ≤ k)
    (hd : k * W + (W - 1) ≤ x.colABlockSize + x.colBBlockSize - 2)
    (hend : a < k * W + (W - 1) → k * W + (W - 1) < x.colABlockSize → ∀ i, 0 ≤ i → i < diagonalCountRounded x W →
      i / W = k → k * W + (W - 1) ∉ (bisect (move x (k * W + (W - 1))) (partBeg x W i) (partEnd x W i)).1)
    {dA dB : ℤ → ℤ} (hs : Stored x W dA dB) : dA k = a ∧ dB k = k * W + (W - 1) - a := by
  have hw := h.writes hW hk hd
  obtain ⟨p, hp, hA⟩ := hs.a k _ hw
  obtain ⟨q, hq, hB⟩ := hs.b k _ hw
  rw [hA, hB, h.eq_of_writes hW hend hp, h.eq_of_writes hW hend hq]
  exact ⟨rfl, rfl⟩

variable (x)

/-- the part of diagonal `i` that iteration `i` of the second kernel searches -/
def findBeg (W : ℤ) (dA : ℤ → ℤ) (i : ℤ) : ℤ := if (i + 1) / W = 0 then 0 else dA ((i + 1) / W - 1)

def findWidth (W i : ℤ) : ℤ := if (i + 1) / W = 0 then i % W else (i + 1) % W

include hW in
theorem kernelFindMergePath_eq {dA dB : ℤ → ℤ} {i : ℤ} (hi : 0 ≤ i)
    (hbase : ∀ k, 0 ≤ k → (i + 1) / W = k + 1 → dA k + dB k = k * W + (W - 1)) :
    kernelFindMergePath x W dA dB i =
      ((bisect (move x i) (findBeg W dA i) (findBeg W dA i + findWidth W i)).1.flatMap (readsAt x i),
        (bisect (move x i) (findBeg W dA i) (findBeg W dA i + findWidth W i)).2.map fun a => (a, i - a)) := by
  have hdiv := Int.emod_add_mul_ediv (i + 1) W
  rw [mul_comm] at hdiv
  simp only [kernelFindMergePath]
  by_cases hz : (i + 1) / W = 0
  · have hsmall : i % W = i := by
      have hmod := Int.emod_lt_of_pos (i + 1) (show 0 < W by omega)
      rw [hz, zero_mul] at hdiv
      exact Int.emod_eq_of_lt hi (by omega)
    simp only [findBeg, findWidth, hz, if_true]
    exact search_eq x (by omega) (by omega)
  · have hquot : 0 ≤ (i + 1) / W := Int.ediv_nonneg (by omega) (by omega)
    have hk := hbase ((i + 1) / W - 1) (by omega) (by ring)
    have hmul : ((i + 1) / W - 1) * W = (i + 1) / W * W - W := by ring
    simp only [findBeg, findWidth, hz, if_false]
    exact search_eq x (by omega) (by omega)

/-- every write can be the last one -/
theorem exists_stored : ∃ dA dB, Stored x W dA dB := by
  classical
  have hchoice : ∀ k, ∃ p, ∀ q, Writes x W k q → Writes x W k p := by
    intro k
    by_cases h : ∃ q, Writes x W k q
    · obtain ⟨q, hq⟩ := h
      exact ⟨q, fun _ _ => hq⟩
    · exact ⟨(0, 0), fun q hq => absurd ⟨q, hq⟩ h⟩
  choose p hp using hchoice
  exact ⟨fun k => (p k).1, fun k => (p k).2, ⟨fun k q hq => ⟨p k, hp k q hq, rfl⟩, fun k q hq => ⟨p k, hp k q hq, rfl⟩⟩⟩

end Threads

/-! ## Blocks whose path runs along the border -/

section Path

variable (x : Blocks T) {W : ℤ} (hW : 1 ≤ W)

/-- the path crosses diagonal `d` at `c d`, the points where a neighbour outside of the arrays would be read are on no
diagonal of the path, and no thread of the first kernel visits one -/
structure Path (W : ℤ) (c : ℤ → ℤ) : Prop where
  crossing : ∀ d, 0 ≤ d → d ≤ x.colABlockSize + x.colBBlockSize - 2 → Crossing x d (c d)
  reads : ∀ a b, 0 ≤ a → 0 ≤ b → (b = 0 → a < x.colABlockSize → c a = a) → ∀ r ∈ (visit x a b).1, InRange x r
  notVisited : ∀ i, 0 ≤ i → c (diagonalOf W i) < diagonalOf W i → diagonalOf W i < x.colABlockSize →
    diagonalOf W i ∉ (bisect (move x (diagonalOf W i)) (partBeg x W i) (partEnd x W i)).1

variable {x} {c : ℤ → ℤ}

/-- a diagonal with a crossing before its end is not searched from its end -/
theorem Crossing.not_above {d a : ℤ} (h : Crossing x d a) (hlt : a < d) : move x d (d - 1) ≠ .above := by
  rcases (show a = d - 1 ∨ a < d - 1 by omega) with rfl | hlt'
  · rw [h.found]
    decide
  · rw [h.behind _ hlt' (by omega)]
    decide

include hW in
theorem Path.partition_reads (h : Path x W c) {i : ℤ} (hi : 0 ≤ i) :
    ∀ r ∈ (kernelPartitionInput x W i).1, InRange x r := by
  rw [kernelPartitionInput_eq x hW]
  intro r hr
  obtain ⟨m, hm, hr⟩ := List.mem_flatMap.1 hr
  obtain ⟨hlo, hhi⟩ := part_bounds x hW i
  obtain ⟨hm₀, hm₁⟩ := Bisection.visits_mem_range m hm
  refine h.reads m (diagonalOf W i - m) (by omega) (by omega) ?_ r hr
  intro hend hlt
  obtain rfl : m = diagonalOf W i := by omega
  have hcross := h.crossing (diagonalOf W i) (by omega) (by linarith [x.sizeB_pos])
  by_contra hne
  have hle := hcross.col.1
  exact h.notVisited i hi (by omega) hlt hm

include hW in
theorem Path.stored (h : Path x W c) {dA dB : ℤ → ℤ} (hs : Stored x W dA dB) {k : ℤ} (hk : 0 ≤ k)
    (hd : k * W + (W - 1) ≤ x.colABlockSize + x.colBBlockSize - 2) :
    dA k = c (k * W + (W - 1)) ∧ dB k = k * W + (W - 1) - c (k * W + (W - 1)) := by
  have hd₀ : 0 ≤ k * W + (W - 1) := by
    have := mul_nonneg hk (show 0 ≤ W by omega)
    omega
  refine (h.crossing _ hd₀ hd).stored hW hk hd ?_ hs
  intro hlt hin i hi _ hquot
  have hdiag : diagonalOf W i = k * W + (W - 1) := by rw [diagonalOf, hquot]
  have hnot := h.notVisited i hi
  rw [hdiag] at hnot
  exact hnot hlt hin

/-- where the second kernel starts: on the diagonal before `i` that the first kernel searched -/
theorem findBeg_cases (W : ℤ) (hW : 1 ≤ W) {i : ℤ} (hi : 0 ≤ i) (dA : ℤ → ℤ) :
    (findBeg W dA i = 0 ∧ findWidth W i = i) ∨
    ∃ k, 0 ≤ k ∧ (i + 1) / W = k + 1 ∧ findBeg W dA i = dA k ∧ 0 ≤ findWidth W i ∧
      k * W + (W - 1) + findWidth W i = i := by
  have hdiv := Int.emod_add_mul_ediv (i + 1) W
  rw [mul_comm] at hdiv
  have hmod₀ := Int.emod_nonneg (i + 1) (show W ≠ 0 by omega)
  have hmod := Int.emod_lt_of_pos (i + 1) (show 0 < W by omega)
  have hquot : 0 ≤ (i + 1) / W := Int.ediv_nonneg (by omega) (by omega)
  by_cases hz : (i + 1) / W = 0
  · left
    rw [hz, zero_mul] at hdiv
    simp only [findBeg, findWidth, hz, if_true]
    exact ⟨trivial, Int.emod_eq_of_lt hi (by omega)⟩
  · right
    have hmul : ((i + 1) / W - 1) * W = (i + 1) / W * W - W := by ring
    refine ⟨(i + 1) / W - 1, by omega, by ring, ?_, ?_, ?_⟩
    · simp only [findBeg, hz, if_false]
    · simp only [findWidth, hz, if_false]
      exact hmod₀
    · simp only [findWidth, hz, if_false]
      omega

include hW in
theorem Path.find_reads (h : Path x W c) {dA dB : ℤ → ℤ} (hs : Stored x W dA dB) {i : ℤ} (hi : 0 ≤ i)
    (hlt : i < diagonalCount x) : ∀ r ∈ (kernelFindMergePath x W dA dB i).1, InRange x r := by
  unfold diagonalCount at hlt
  have hstored : ∀ k, 0 ≤ k → k * W + (W - 1) ≤ i →
      dA k = c (k * W + (W - 1)) ∧ dB k = k * W + (W - 1) - c (k * W + (W - 1)) :=
    fun k hk hki => h.stored hW hs hk (by omega)
  have hcross := h.crossing i hi (by omega)
  rw [kernelFindMergePath_eq x hW hi]
  · intro r hr
    obtain ⟨m, hm, hr⟩ := List.mem_flatMap.1 hr
    obtain ⟨hm₀, hm₁⟩ := Bisection.visits_mem_range m hm
    have hcol := hcross.col.1
    -- the interval, and why its upper end is not visited from below when it is the end of the diagonal
    have hrange : 0 ≤ findBeg W dA i ∧ findBeg W dA i + findWidth W i ≤ i ∧
        (c i < i → findBeg W dA i < i) := by
      rcases findBeg_cases W hW hi dA with ⟨hbeg, hwidth⟩ | ⟨k, hk, -, hbeg, hwidth, hsum⟩
      · exact ⟨by omega, by omega, by intro; have := hcross.row.1; omega⟩
      · obtain ⟨hA, -⟩ := hstored k hk (by omega)
        have hprev := h.crossing (k * W + (W - 1)) (by have := mul_nonneg hk (show 0 ≤ W by omega); omega) (by omega)
        have hrow := hprev.row.1
        have hcol' := hprev.col.1
        refine ⟨by omega, by omega, ?_⟩
        intro hci
        by_contra hge
        obtain ⟨hw, heq⟩ : findWidth W i = 0 ∧ dA k = i := by omega
        rw [hw, add_zero] at hsum
        rw [hsum] at hA
        omega
    obtain ⟨hbeg₀, hend, hstart⟩ := hrange
    refine h.reads m (i - m) (by omega) (by omega) ?_ r hr
    intro hb hin
    obtain rfl : m = i := by omega
    by_contra hne
    have hci : c m < m := by omega
    have hhi : findBeg W dA m + findWidth W m = m := by omega
    rw [hhi] at hm
    exact Bisection.not_mem_visits_hi (hstart hci) (hcross.not_above hci) hm
  · intro k hk₀ hk
    have hkW : (k + 1) * W ≤ i + 1 := by
      rw [← hk]
      exact Int.ediv_mul_le _ (by omega)
    have hmul : (k + 1) * W = k * W + W := by ring
    obtain ⟨hA, hB⟩ := hstored k hk₀ (by omega)
    omega

end Path

/-! ## When the reads stay in the arrays -/

section Safe

variable (x : Blocks T) (W : ℤ)

/-- The blocks lie beside each other or one of them has a single row; where B comes first, A must be narrower than a
thread block or a thread block one thread wide. -/
def Safe : Prop :=
  (x.colABlock 0 ≤ x.colBBlock 0 →
    x.colBBlockSize = 1 ∨ x.colABlock (x.colABlockSize - 1) ≤ x.colBBlock 0) ∧
  (x.colBBlock 0 < x.colABlock 0 →
    (x.colBBlockSize = 1 ∨ W = 1 ∨ x.colABlockSize < W) ∧
      (x.colABlockSize = 1 ∨ x.colBBlock (x.colBBlockSize - 1) < x.colABlock 0))

variable {x} {W}

/-- outside of the matrix nothing is read -/
theorem visit_outside {a b : ℤ} (h : x.colABlockSize ≤ a ∨ x.colBBlockSize ≤ b) : (visit x a b).1 = [] := by
  unfold visit
  split_ifs <;> first | rfl | omega

/-- a single row, a single column, or A before B: the path runs along the first row and down the last column -/
theorem path_flat (h : x.colBBlockSize = 1 ∨ x.colABlockSize = 1 ∨
    x.colABlock (x.colABlockSize - 1) ≤ x.colBBlock 0) : Path x W fun d => min d (x.colABlockSize - 1) := by
  have hposA := x.sizeA_pos
  have hposB := x.sizeB_pos
  -- a point inside is on a border of a matrix that is a line, or below B
  have hborder : ∀ a b, 0 ≤ a → a < x.colABlockSize → 0 ≤ b → b < x.colBBlockSize →
      (a = x.colABlockSize - 1 ∨ b = 0) →
      (visit x a b).2 = .found ∧ ∀ r ∈ (visit x a b).1, InRange x r := by
    intro a b ha₀ ha hb₀ hb hab
    refine visit_border x ha₀ ha hb₀ hb ?_
    rcases le_or_gt (x.colABlock a) (x.colBBlock b) with hle | hgt
    · exact Or.inr ⟨hle, hab⟩
    · refine Or.inl ⟨hgt, ?_⟩
      rcases h with h | h | h
      · exact Or.inr (by omega)
      · exact Or.inl (by omega)
      · have hle : x.colABlock a ≤ x.colBBlock b :=
          ((x.sortedA _ _ ha₀ (by omega) (by omega)).trans h).trans (x.monoB (le_refl _) hb₀ hb)
        exact absurd hgt (not_lt.2 hle)
  have hbefore : ∀ a b, 0 ≤ a → a < x.colABlockSize - 1 → 1 ≤ b →
      (visit x a b).2 = .above ∧ (0 ≤ a → ∀ r ∈ (visit x a b).1, InRange x r) := by
    intro a b ha₀ ha hb
    refine visit_above x ha hb ?_
    intro hin
    rcases h with h | h | h
    · omega
    · omega
    · exact ((x.sortedA _ _ ha₀ (by omega) (by omega)).trans h).trans (x.monoB (le_refl _) (by omega) (by omega))
  refine ⟨?_, ?_, ?_⟩
  · intro d hd₀ hd
    refine ⟨by omega, by omega, (hborder _ _ (by omega) (by omega) (by omega) (by omega) (by omega)).1, ?_, ?_⟩
    · intro m hm hlt
      exact (hbefore m (d - m) hm (by omega) (by omega)).1
    · intro m hm hlt
      exact (visit_below x (by omega) (by omega) (by omega)).1
  · intro a b ha₀ hb₀ _
    rcases (show (x.colABlockSize ≤ a ∨ x.colBBlockSize ≤ b) ∨ (a < x.colABlockSize ∧ b < x.colBBlockSize) by omega)
      with hout | ⟨ha, hb⟩
    · simp [visit_outside hout]
    · by_cases hab : a = x.colABlockSize - 1 ∨ b = 0
      · exact (hborder a b ha₀ ha hb₀ hb hab).2
      · exact (hbefore a b ha₀ (by omega) (by omega)).2 ha₀
  · intro i _ hlt hin
    omega

/-- B before A, of at least two rows: the path runs down the first column and along the last row -/
theorem path_steep (hW : 1 ≤ W) (hB : 2 ≤ x.colBBlockSize) (hwidth : W = 1 ∨ x.colABlockSize < W)
    (h : x.colBBlock (x.colBBlockSize - 1) < x.colABlock 0) :
    Path x W fun d => max 0 (d - (x.colBBlockSize - 1)) := by
  have hposA := x.sizeA_pos
  have hmore : ∀ a b, 0 ≤ a → a < x.colABlockSize → 0 ≤ b → b < x.colBBlockSize →
      x.colBBlock b < x.colABlock a := by
    intro a b ha₀ ha hb₀ hb
    exact ((x.monoB hb₀ (by omega) (by omega)).trans_lt h).trans_le (x.sortedA _ _ (le_refl _) ha₀ ha)
  have hbehind : ∀ a b, 1 ≤ a → b < x.colBBlockSize - 1 → (a < x.colABlockSize → 1 ≤ b) →
      (visit x a b).2 = .below ∧ ∀ r ∈ (visit x a b).1, InRange x r := by
    intro a b ha hb hb₁
    refine visit_below x ha hb ?_
    intro hin
    have hb₀ := hb₁ hin
    exact ⟨hb₀, hmore _ _ (by omega) (by omega) (by omega) (by omega)⟩
  have hcrossing : ∀ d, 0 ≤ d → d ≤ x.colABlockSize + x.colBBlockSize - 2 →
      Crossing x d (max 0 (d - (x.colBBlockSize - 1))) := by
    intro d hd₀ hd
    refine ⟨by omega, by omega, ?_, ?_, ?_⟩
    · exact (visit_border x (by omega) (by omega) (by omega) (by omega)
        (Or.inl ⟨hmore _ _ (by omega) (by omega) (by omega) (by omega), by omega⟩)).1
    · intro m hm hlt
      exact (visit_above x (by omega) (by omega) (by omega)).1
    · intro m hm hlt
      exact (hbehind m (d - m) (by omega) (by omega) (by omega)).1
  refine ⟨hcrossing, ?_, ?_⟩
  · intro a b ha₀ hb₀ hunder
    rcases (show (x.colABlockSize ≤ a ∨ x.colBBlockSize ≤ b) ∨ (a < x.colABlockSize ∧ b < x.colBBlockSize) by omega)
      with hout | ⟨ha, hb⟩
    · simp [visit_outside hout]
    · by_cases hab : a = 0 ∨ b = x.colBBlockSize - 1
      · exact (visit_border x ha₀ ha hb₀ hb (Or.inl ⟨hmore a b ha₀ ha hb₀ hb, hab⟩)).2
      · exact (hbehind a b (by omega) (by omega) (by omega)).2
  · intro i hi hlt hin
    rcases hwidth with rfl | hwide
    · -- one thread for each diagonal: it starts below the end
      have hdiag : diagonalOf 1 i = i := by simp [diagonalOf]
      rw [hdiag] at hlt hin ⊢
      have hend : partEnd x 1 i = i := by simp [partEnd, rounded, hin]
      have hbeg : partBeg x 1 i < i := by
        have hone : rounded x.colBBlockSize 1 = x.colBBlockSize := by simp [rounded]
        have hmod : i % 1 = 0 := Int.emod_one i
        rw [partBeg, hone, hmod]
        split_ifs <;> omega
      rw [hend]
      exact Bisection.not_mem_visits_hi hbeg ((hcrossing i hi (by omega)).not_above hlt)
    · have hquot : 0 ≤ i / W * W := mul_nonneg (Int.ediv_nonneg hi (by omega)) (by omega)
      unfold diagonalOf at hin
      omega

theorem path_of_safe (hW : 1 ≤ W) (h : Safe x W) : ∃ c, Path x W c := by
  have hposB := x.sizeB_pos
  rcases le_or_gt (x.colABlock 0) (x.colBBlock 0) with hle | hgt
  · exact ⟨_, path_flat ((h.1 hle).imp_right Or.inr)⟩
  · obtain ⟨hwidth, hbeside⟩ := h.2 hgt
    rcases hwidth with hB | hwidth
    · exact ⟨_, path_flat (Or.inl hB)⟩
    rcases hbeside with hA | hbeside
    · exact ⟨_, path_flat (Or.inr (Or.inl hA))⟩
    rcases (show x.colBBlockSize = 1 ∨ 2 ≤ x.colBBlockSize by omega) with hB | hB
    · exact ⟨_, path_flat (Or.inl hB)⟩
    · exact ⟨_, path_steep hW hB hwidth hbeside⟩

theorem reads_of_path (hW : 1 ≤ W) {c : ℤ → ℤ} (h : Path x W c) : ReadsInRange x W :=
  ⟨fun _ hi _ => h.partition_reads hW hi, fun _ _ hs _ hi hlt => h.find_reads hW hs hi hlt⟩

/-! ## When they do not -/

/-- a first row that begins below B[0] and ends above it has a step -/
theorem exists_step {P : ℤ → Prop} {n : ℤ} (hn : 0 ≤ n) (h₀ : ¬ P 0) (h : P n) :
    ∃ j, 1 ≤ j ∧ j ≤ n ∧ ¬ P (j - 1) ∧ P j := by
  induction n, hn using Int.leInduction with
  | base => exact absurd h h₀
  | succ n hn ih =>
    by_cases hp : P n
    · obtain ⟨j, h₁, h₂, h₃, h₄⟩ := ih hp
      exact ⟨j, h₁, by omega, h₃, h₄⟩
    · exact ⟨n + 1, by omega, le_refl _, by simpa using hp, h⟩

/-- a thread of the first kernel that visits a point reads what the point reads -/
theorem reads_of_visit (hW : 1 ≤ W) (hreads : ReadsInRange x W) {i m : ℤ} (hi : 0 ≤ i)
    (hlt : i < diagonalCountRounded x W)
    (hm : m ∈ (bisect (move x (diagonalOf W i)) (partBeg x W i) (partEnd x W i)).1) :
    ∀ r ∈ (visit x m (diagonalOf W i - m)).1, InRange x r := by
  intro r hr
  refine hreads.1 i hi hlt r ?_
  rw [kernelPartitionInput_eq x hW]
  exact List.mem_flatMap.2 ⟨m, hm, hr⟩

/-- Suppose every diagonal before `d` has its crossing at `g`, and `d` is a diagonal all of whose points lead to `g d`.
Then one of the two kernels visits that point. -/
theorem reads_at (hW : 1 ≤ W) (hreads : ReadsInRange x W) (g : ℤ → ℤ) {d : ℤ} (hd₀ : 0 ≤ d) (hd : d < diagonalCount x)
    (hrow : 0 ≤ g d ∧ g d < x.colABlockSize) (hcol : 0 ≤ d - g d ∧ d - g d < x.colBBlockSize)
    (hbefore : ∀ m, 0 ≤ m → m < g d → move x d m = .above) (hbehind : ∀ m, g d < m → m < d → move x d m = .below)
    (hstep : ∀ e, 0 ≤ e → e < d → g e ≤ g d ∧ g d ≤ g e + (d - e)) (hearlier : ∀ e, 0 ≤ e → e < d → Crossing x e (g e))
    (hunder : ∀ e, 0 ≤ e → e < d → g e < e → e < x.colABlockSize → Read.b (-1) ∈ (visit x e 0).1) :
    ∀ r ∈ (visit x (g d) (d - g d)).1, InRange x r := by
  unfold diagonalCount at hd
  by_cases hdvd : W ∣ d + 1
  · -- a diagonal of the first kernel
    obtain ⟨q, hq⟩ := hdvd
    have hmul : (q - 1) * W + (W - 1) = d := by linarith [mul_comm W q]
    have hq₀ : 0 ≤ q - 1 := by
      by_contra hneg
      have : W * q ≤ 0 := mul_nonpos_of_nonneg_of_nonpos (by omega) (by omega)
      omega
    obtain ⟨i, hi, hlt, -, hdiag, hbeg, hend⟩ :=
      cover x hW hq₀ (by omega) hrow.1 hrow.2 (by rw [hmul]; exact hcol.1) (by rw [hmul]; exact hcol.2)
    obtain ⟨hlo, hhi⟩ := part_bounds x hW i
    rw [hmul] at hdiag
    rw [hdiag] at hhi
    have hvisit := reads_of_visit hW hreads hi hlt (m := g d)
    rw [hdiag] at hvisit
    exact hvisit (Bisection.reaches hbeg hend (fun m h₁ h₂ => hbefore m (by omega) h₂)
      (fun m h₁ h₂ => hbehind m h₁ (by omega))).1
  · -- a diagonal of the second kernel, from the one before it that the first kernel searched
    obtain ⟨dA, dB, hs⟩ := exists_stored x (W := W)
    have hstored : ∀ k, 0 ≤ k → k * W + (W - 1) < d →
        dA k = g (k * W + (W - 1)) ∧ dB k = k * W + (W - 1) - g (k * W + (W - 1)) := by
      intro k hk hlt
      have he₀ : 0 ≤ k * W + (W - 1) := by
        have := mul_nonneg hk (show 0 ≤ W by omega)
        omega
      refine (hearlier _ he₀ hlt).stored hW hk (by omega) ?_ hs
      intro hge hin i hi hilt hquot hmem
      have hdiag : diagonalOf W i = k * W + (W - 1) := by rw [diagonalOf, hquot]
      have hvisit := reads_of_visit hW hreads hi hilt (m := k * W + (W - 1))
      rw [hdiag, sub_self] at hvisit
      have hrange := hvisit hmem _ (hunder _ he₀ hlt hge hin)
      simp [InRange] at hrange
    have hlast : ∀ k, k * W + (W - 1) ≠ d := by
      intro k hk
      exact hdvd ⟨k + 1, by rw [← hk]; ring⟩
    intro r hr
    refine hreads.2 dA dB hs d hd₀ hd r ?_
    rw [kernelFindMergePath_eq x hW hd₀]
    · refine List.mem_flatMap.2 ⟨g d, ?_, hr⟩
      have hrange : 0 ≤ findBeg W dA d ∧ findBeg W dA d ≤ g d ∧ g d ≤ findBeg W dA d + findWidth W d ∧
          findBeg W dA d + findWidth W d ≤ d := by
        rcases findBeg_cases W hW hd₀ dA with ⟨hbeg, hwidth⟩ | ⟨k, hk, -, hbeg, hwidth, hsum⟩
        · exact ⟨by omega, by omega, by omega, by omega⟩
        · have hne := hlast k
          have he₀ : 0 ≤ k * W + (W - 1) := by
            have := mul_nonneg hk (show 0 ≤ W by omega)
            omega
          obtain ⟨hA, -⟩ := hstored k hk (by omega)
          obtain ⟨hle, hge⟩ := hstep _ he₀ (by omega)
          have hcross := hearlier _ he₀ (by omega)
          have hrow₀ := hcross.row.1
          have hcol₀ := hcross.col.1
          exact ⟨by omega, by omega, by omega, by omega⟩
      obtain ⟨hbeg₀, hbeg, hend, hend'⟩ := hrange
      exact (Bisection.reaches hbeg hend (fun m h₁ h₂ => hbefore m (by omega) h₂)
        (fun m h₁ h₂ => hbehind m h₁ (by omega))).1
    · intro k hk₀ hk
      have hkW : (k + 1) * W ≤ d + 1 := by
        rw [← hk]
        exact Int.ediv_mul_le _ (by omega)
      have hmul : (k + 1) * W = k * W + W := by ring
      have hne := hlast k
      obtain ⟨hA, hB⟩ := hstored k hk₀ (by omega)
      omega

/-- A begins at or below B[0] and ends above it, B has a second row -/
theorem not_reads_of_step_a (hW : 1 ≤ W) (hB : 2 ≤ x.colBBlockSize) (h₀ : x.colABlock 0 ≤ x.colBBlock 0)
    (h : x.colBBlock 0 < x.colABlock (x.colABlockSize - 1)) : ¬ ReadsInRange x W := by
  intro hreads
  have hposA := x.sizeA_pos
  obtain ⟨j, hj, hjn, hbelow, habove⟩ := exists_step (P := fun n => x.colBBlock 0 < x.colABlock n)
    (show 0 ≤ x.colABlockSize - 1 by omega) (not_lt.2 h₀) h
  rw [not_lt] at hbelow
  have hpoint : ∀ d m, 0 ≤ m → m < d → d ≤ j → move x d m = .above := by
    intro d m hm hmd hdj
    refine (visit_above x (by omega) (by omega) ?_).1
    intro hin
    exact ((x.sortedA _ _ hm (show m ≤ j - 1 by omega) (by omega)).trans hbelow).trans
      (x.monoB (le_refl _) (by omega) (by omega))
  have hrow : 0 ≤ j ∧ j < x.colABlockSize := by omega
  have hcol : 0 ≤ j - j ∧ j - j < x.colBBlockSize := by omega
  have hvisit := reads_at hW hreads id (d := j) (by omega) (by unfold diagonalCount; omega) hrow hcol
    (fun m h₁ h₂ => hpoint j m h₁ h₂ (le_refl _)) (fun m h₁ h₂ => absurd h₁ (not_lt.2 h₂.le))
    (fun e _ he => ⟨he.le, by rw [id, id]; omega⟩) ?_ (fun e _ _ hlt => absurd hlt (lt_irrefl e))
  · have hrange := hvisit _ (by rw [id, sub_self]; exact visit_under x hj (by omega) hB habove)
    simp [InRange] at hrange
  · intro e he₀ he
    have hin : e < x.colABlockSize := by omega
    have hcol₀ : 0 ≤ e - e ∧ e - e < x.colBBlockSize := by omega
    refine ⟨⟨he₀, hin⟩, hcol₀, ?_, fun m h₁ h₂ => hpoint e m h₁ h₂ (by omega),
      fun m h₁ h₂ => absurd h₁ (not_lt.2 h₂.le)⟩
    refine (visit_border x he₀ hin hcol₀.1 hcol₀.2 (Or.inr ⟨?_, Or.inr (sub_self e)⟩)).1
    have hfirst : x.colABlock e ≤ x.colBBlock 0 := (x.sortedA _ _ he₀ (by omega) (by omega)).trans hbelow
    rwa [← sub_self e] at hfirst

/-- B begins below A[0] and ends at or above it, A has a second row -/
theorem not_reads_of_step_b (hW : 1 ≤ W) (hA : 2 ≤ x.colABlockSize) (h₀ : x.colBBlock 0 < x.colABlock 0)
    (h : x.colABlock 0 ≤ x.colBBlock (x.colBBlockSize - 1)) : ¬ ReadsInRange x W := by
  intro hreads
  have hposB := x.sizeB_pos
  obtain ⟨l, hl, hln, hbelow, habove⟩ := exists_step (P := fun n => x.colABlock 0 ≤ x.colBBlock n)
    (show 0 ≤ x.colBBlockSize - 1 by omega) (not_le.2 h₀) h
  rw [not_le] at hbelow
  have hmore : ∀ m b, 0 ≤ m → m < x.colABlockSize → 0 ≤ b → b ≤ l - 1 → x.colBBlock b < x.colABlock m := by
    intro m b hm hin hb hbl
    exact ((x.monoB hb hbl (by omega)).trans_lt hbelow).trans_le (x.sortedA _ _ (le_refl _) hm hin)
  have hpoint : ∀ d m, 0 < m → m < d → d ≤ l → move x d m = .below := by
    intro d m hm hmd hdl
    exact (visit_below x (by omega) (by omega) fun hin =>
      ⟨by omega, hmore _ _ (by omega) (by omega) (by omega) (by omega)⟩).1
  have hvisit := reads_at hW hreads (fun _ => 0) (d := l) (by omega) (by unfold diagonalCount; omega)
    ⟨by omega, by omega⟩ ⟨by omega, by omega⟩ (fun m h₁ h₂ => by omega) (fun m h₁ h₂ => hpoint l m h₁ h₂ (le_refl _))
    (fun e _ he => ⟨by omega, by omega⟩) ?_ ?_
  · have hrange := hvisit _ (by rw [sub_zero]; exact visit_left x hA hl (by omega) habove hbelow)
    simp [InRange] at hrange
  · intro e he₀ he
    refine ⟨⟨by omega, by omega⟩, ⟨by omega, by omega⟩, ?_, fun m h₁ h₂ => by omega,
      fun m h₁ h₂ => hpoint e m h₁ h₂ (by omega)⟩
    exact (visit_border x (by omega) (by omega) (by omega) (by omega)
      (Or.inl ⟨hmore _ _ (by omega) (by omega) (by omega) (by omega), Or.inl rfl⟩)).1
  · intro e he₀ he hge hin
    exact visit_under x (by omega) hin (by omega) (hmore _ _ (by omega) hin (by omega) (by omega))

/-- B begins below A[0] and A is at least as wide as a thread block: the last thread of the first group is alone with
the lower end of the row -/
theorem not_reads_of_width (hW : 2 ≤ W) (hA : W ≤ x.colABlockSize) (hB : 2 ≤ x.colBBlockSize)
    (h₀ : x.colBBlock 0 < x.colABlock 0) : ¬ ReadsInRange x W := by
  intro hreads
  obtain ⟨hroundA, -⟩ := rounded_bounds (show 1 ≤ W by omega) x.colABlockSize
  have hroundB : W ≤ rounded x.colBBlockSize W := by
    obtain ⟨hround, -⟩ := rounded_bounds (show 1 ≤ W by omega) x.colBBlockSize
    have hgap := group_lt_rounded (show 1 ≤ W by omega) (n := x.colBBlockSize) 0
    rw [zero_mul, zero_add] at hgap
    exact hgap (by omega)
  have hquot : (W - 1) / W = 0 := Int.ediv_eq_zero_of_lt (by omega) (by omega)
  have hmod : (W - 1) % W = W - 1 := Int.emod_eq_of_lt (by omega) (by omega)
  have hdiag : diagonalOf W (W - 1) = W - 1 := by rw [diagonalOf, hquot, zero_mul, zero_add]
  have hbeg : partBeg x W (W - 1) = W - 1 := by rw [partBeg, if_pos (by omega), hmod]
  have hend : partEnd x W (W - 1) = W - 1 := by rw [partEnd, if_pos (by omega)]
  have hvisit := reads_of_visit (show 1 ≤ W by omega) hreads (i := W - 1) (m := W - 1) (by omega)
    (by unfold diagonalCountRounded; omega)
  rw [hdiag, hbeg, hend, sub_self] at hvisit
  have hmem : W - 1 ∈ (bisect (move x (W - 1)) (W - 1) (W - 1)).1 :=
    (Bisection.reaches (le_refl _) (le_refl _) (fun m h₁ h₂ => by omega) (fun m h₁ h₂ => by omega)).1
  have hrange := hvisit hmem _ (visit_under x (by omega) (by omega) hB
    (h₀.trans_le (x.sortedA _ _ (le_refl _) (by omega) (by omega))))
  simp [InRange] at hrange

theorem safe_of_reads (hW : 1 ≤ W) (hreads : ReadsInRange x W) : Safe x W := by
  have hposA := x.sizeA_pos
  have hposB := x.sizeB_pos
  refine ⟨?_, ?_⟩
  · intro h₀
    by_contra hnot
    rw [not_or, not_le] at hnot
    exact not_reads_of_step_a hW (by omega) h₀ hnot.2 hreads
  · intro h₀
    refine ⟨?_, ?_⟩
    · by_contra hnot
      exact not_reads_of_width (show 2 ≤ W by omega) (by omega) (by omega) h₀ hreads
    · by_contra hnot
      rw [not_or, not_lt] at hnot
      exact not_reads_of_step_b hW (by omega) h₀ hnot.2 hreads

/-- **The merge-path search stays in range exactly for such blocks.** -/
theorem reads_iff (x : Blocks T) (W : ℤ) (hW : 1 ≤ W) : ReadsInRange x W ↔ Safe x W := by
  constructor
  · exact safe_of_reads hW
  · intro h
    obtain ⟨c, hpath⟩ := path_of_safe hW h
    exact reads_of_path hW hpath

/-- the keys 5, 7 and 3, 6 -/
def crossed : Blocks ℤ where
  colABlock i := if i ≤ 0 then 5 else 7
  colBBlock i := if i ≤ 0 then 3 else 6
  colABlockSize := 2
  colBBlockSize := 2
  sizeA_pos := by decide
  sizeB_pos := by decide
  sortedA i j _ _ _ := by split_ifs <;> omega
  sortedB i j _ _ _ := by split_ifs <;> omega

/-- the keys 1, 2 and 2, 6 -/
def beside : Blocks ℤ where
  colABlock i := if i ≤ 0 then 1 else 2
  colBBlock i := if i ≤ 0 then 2 else 6
  colABlockSize := 2
  colBBlockSize := 2
  sizeA_pos := by decide
  sizeB_pos := by decide
  sortedA i j _ _ _ := by split_ifs <;> omega
  sortedB i j _ _ _ := by split_ifs <;> omega

theorem reads_iff_beside : ReadsInRange beside 1024 := by
  refine (reads_iff beside 1024 (by decide)).2 ⟨fun _ => Or.inr (by decide), fun h => ?_⟩
  exact absurd h (by decide)

/-- on the diagonal of (5, 6) and (7, 3) the first point is neither on a border for the tests nor has a neighbour -/
theorem reads_outside : ¬ ∀ (x : Blocks ℤ) (W : ℤ), 1 ≤ W → ReadsInRange x W := by
  intro hall
  exact not_reads_of_step_b (x := crossed) (show (1 : ℤ) ≤ 1024 by decide) (by decide) (by decide) (by decide)
    (hall crossed 1024 (by decide))

end Safe

end QikkDB.MergePath

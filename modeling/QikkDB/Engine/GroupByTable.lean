/-
GROUP BY on one integer key (QueryEngine/GPUCore/GPUGroupBy.cuh): the hash table, `group_by_kernel` on a block,
GetResults.

Slot 0 is for NULL. A key starts at slot `abs(int32(key)) % L + 1` of the L others and takes the next one that is free
or has the key; a slot is free while it has the lowest value of the key type. The rows of a block are taken one at a
time, in any order. An access to a slot that is not there ends the run.

Results:
- `groupBy_correct`: unless the table is full, GetResults returns the groups exactly when no key is the lowest value,
  and none has the low 32 bits of INT32_MIN, which has no absolute value, unless L divides 2^31.
-/
import Mathlib.NumberTheory.LucasLehmer
import QikkDB.Engine.GroupByBuckets

namespace QikkDB.GroupByTable

open GroupByBuckets Probing

variable {w : ℕ} {V : Type} [LinearOrder V] [BoundedOrder V] [AddCommMonoid V]

/-! ## Model -/

/-- `GB_BUFFER_SIZE_MAX` -/
def bufferSizeMax : ℕ := 2 ^ 30

/-- `GB_VALUE_BUFFER_DEFAULT_MULTIPLIER` -/
def defaultMultiplier : ℕ := 256

/-- `keyBufferSize_` -/
def keyBufferSize (maxHashCount keySizeMultiplier : ℕ) : ℕ := min (maxHashCount * keySizeMultiplier) bufferSizeMax + 1

/-- `valueBufferMultiplier_` -/
def valueBufferMultiplier (keySizeMultiplier : ℕ) : ℕ :=
  if keySizeMultiplier > defaultMultiplier then 1 else defaultMultiplier / keySizeMultiplier

/-- `getEmptyValue` -/
def emptyValue : IntN w := IntN.lowest w

inductive Fault where
  /-- GPU_HASH_TABLE_FULL -/
  | hashTableFull
  /-- an index outside of the table -/
  | outOfBounds
deriving DecidableEq, Repr

structure Table (w : ℕ) (V : Type) where
  keys : ℕ → IntN w
  buckets : ℕ → Bucket V

/-- the constructor -/
def Table.create (agg : AggregationFunction) : Table w V := ⟨fun _ => emptyValue, fun _ => Bucket.start agg⟩

/-- `abs` of an int32_t, which leaves INT32_MIN as it is -/
def abs32 (n : ℤ) : ℤ := (IntN.wrap 32 |n|).val

/-- `abs(static_cast<int32_t>(key)) % loweredMaxHashCount` -/
def hash (loweredMaxHashCount : ℕ) (key : IntN w) : ℤ :=
  (abs32 (IntN.wrap 32 key.val).val).tmod loweredMaxHashCount

/-- `((hash + j) % loweredMaxHashCount) + 1` -/
def probeIndex (loweredMaxHashCount : ℕ) (key : IntN w) (j : ℕ) : ℤ :=
  (hash loweredMaxHashCount key + j).tmod loweredMaxHashCount + 1

/-- the loop over j -/
def probe (keys : ℕ → IntN w) (loweredMaxHashCount : ℕ) (key : IntN w) : List ℕ → Except Fault ℕ
  | [] => .error .hashTableFull
  | j :: js =>
    let index := probeIndex loweredMaxHashCount key j
    if 0 ≤ index ∧ index ≤ loweredMaxHashCount then
      if keys index.toNat = emptyValue ∨ keys index.toNat = key then .ok index.toNat
      else probe keys loweredMaxHashCount key js
    else .error .outOfBounds

abbrev Row (w : ℕ) (V : Type) := GroupByBuckets.Row (Option (IntN w)) V

/-- a row goes to a slot, which has its key from then on -/
def Table.store (t : Table w V) (agg : AggregationFunction) (arrayMultiplier index : ℕ) (key : IntN w) (row : Row w V) :
    Table w V :=
  ⟨Function.update t.keys index key,
    Function.update t.buckets index ((t.buckets index).put agg arrayMultiplier row)⟩

/-- `group_by_kernel` for one row -/
def processRow (agg : AggregationFunction) (loweredMaxHashCount arrayMultiplier : ℕ) (t : Table w V) (row : Row w V) :
    Except Fault (Table w V) :=
  match row.key with
  | none => .ok (t.store agg arrayMultiplier 0 0 row)
  | some key => do
    let index ← probe t.keys loweredMaxHashCount key (List.range loweredMaxHashCount)
    .ok (t.store agg arrayMultiplier index key row)

/-- ProcessBlock on the blocks of the input, each with its rows in the order in which they are taken -/
def processBlocks (agg : AggregationFunction) (maxHashCount keySizeMultiplier : ℕ) (blocks : List (List (Row w V))) :
    Except Fault (Table w V) :=
  blocks.foldlM (fun t block => block.foldlM
    (processRow agg (keyBufferSize maxHashCount keySizeMultiplier - 1) (valueBufferMultiplier keySizeMultiplier)) t)
    (Table.create agg)

/-- a row of the result: the key, its null bit and the aggregate -/
structure Group (w : ℕ) (V : Type) where
  key : IntN w
  isNull : Bool
  aggregate : Aggregate V

/-- GetResults: the occupied slots in order; CreateKeyNullArray sets the bit of slot 0 -/
def Table.getResults (t : Table w V) (agg : AggregationFunction) (maxHashCount keySizeMultiplier : ℕ) :
    List (Group w V) :=
  (List.range (keyBufferSize maxHashCount keySizeMultiplier)).filterMap fun i =>
    if t.keys i ≠ emptyValue then
      some ⟨t.keys i, decide (i = 0), (t.buckets i).result agg (valueBufferMultiplier keySizeMultiplier)⟩
    else none

/-- a row of the result as it is read through its null mask -/
def Group.read (g : Group w V) : Option (IntN w) × Aggregate V := (if g.isNull then none else some g.key, g.aggregate)

/-- a key that the table can hold -/
def Hashable (loweredMaxHashCount : ℕ) (key : IntN w) : Prop :=
  key ≠ emptyValue ∧ ((IntN.wrap 32 key.val).val = -2 ^ 31 → loweredMaxHashCount ∣ 2 ^ 31)

/-! ## Hashes -/

theorem abs32_eq {n : ℤ} (hlo : -2 ^ 31 ≤ n) (hhi : n < 2 ^ 31) : abs32 n = if n = -2 ^ 31 then n else |n| := by
  have habs : abs32 n = (|n| + 2 ^ 31) % 2 ^ 32 - 2 ^ 31 := rfl
  rw [habs]
  rcases abs_cases n with ⟨h, -⟩ | ⟨h, -⟩
  · rw [h]
    split_ifs <;> omega
  · rw [h]
    split_ifs <;> omega

theorem hash_nonneg {L : ℕ} {key : IntN w} (h : Hashable L key) : 0 ≤ hash L key := by
  unfold hash
  rw [abs32_eq (IntN.wrap 32 key.val).lo (IntN.wrap 32 key.val).hi]
  split_ifs with hmin
  · have hdvd : (L : ℤ) ∣ -2 ^ 31 := by exact_mod_cast (Int.natCast_dvd_natCast.2 (h.2 hmin)).neg_right
    rw [hmin, Int.tmod_eq_zero_of_dvd hdvd]
  · exact Int.tmod_nonneg _ (abs_nonneg _)

theorem probeIndex_bounds {L j : ℕ} {key : IntN w} (h : 0 ≤ hash L key) (hj : j < L) :
    1 ≤ probeIndex L key j ∧ probeIndex L key j ≤ L := by
  have hmod : 0 ≤ (hash L key + j).tmod L := Int.tmod_nonneg _ (by omega)
  have hlt : (hash L key + j).tmod L < L := Int.tmod_lt_of_pos _ (by omega)
  unfold probeIndex
  omega

/-! ## Slots as cells -/

def Table.cell (t : Table w V) (L i : ℕ) : Option (Option (IntN w)) :=
  if i ≤ L ∧ t.keys i ≠ emptyValue then some (if i = 0 then none else some (t.keys i)) else none

/-- the slots that a key tries -/
def path (L : ℕ) : Option (IntN w) → List ℕ
  | none => [0]
  | some key => (List.range L).map fun j => (probeIndex L key j).toNat

def Table.view (t : Table w V) (L : ℕ) : Probing.Table (Option (IntN w)) (Bucket V) := ⟨t.cell L, t.buckets⟩

theorem zero_ne_emptyValue : (0 : IntN w) ≠ emptyValue := by
  intro h
  have hval : (0 : ℤ) = -2 ^ (w - 1) := by
    have hzero : (IntN.wrap w 0).val = 0 := by
      refine IntN.val_wrap ?_ ?_
      · have : (0 : ℤ) < 2 ^ (w - 1) := by positivity
        omega
      · positivity
    exact hzero.symm.trans (congrArg IntN.val h)
  have : (0 : ℤ) < 2 ^ (w - 1) := by positivity
  omega

omit [BoundedOrder V] in
theorem cell_store {t : Table w V} {agg : AggregationFunction} {m L i : ℕ} {key : IntN w} {row : Row w V} (hi : i ≤ L)
    (hkey : key ≠ emptyValue) : (t.store agg m i key row).cell L =
      Function.update (t.cell L) i (some (if i = 0 then none else some key)) := by
  funext l
  by_cases hl : l = i
  · subst hl
    simp [Table.cell, Table.store, hi, hkey]
  · simp [Table.cell, Table.store, hl]

omit [BoundedOrder V] in
theorem view_store {t : Table w V} {agg : AggregationFunction} {m L i : ℕ} {key : IntN w} {row : Row w V} (hi : i ≤ L)
    (hkey : key ≠ emptyValue) (hrow : row.key = if i = 0 then none else some key) :
    (t.store agg m i key row).view L = (t.view L).insert (Bucket.put agg m) i row.key row := by
  simp only [Table.view, Probing.Table.insert, cell_store hi hkey, hrow]
  rfl

omit [LinearOrder V] [BoundedOrder V] [AddCommMonoid V] in
theorem probe_eq_locate {t : Table w V} {L : ℕ} {key : IntN w} (hhash : 0 ≤ hash L key)
    {js : List ℕ} (hjs : ∀ j ∈ js, j < L) : probe t.keys L key js =
      match locate (t.cell L) (js.map fun j => (probeIndex L key j).toNat) (some key) with
      | some i => .ok i
      | none => .error .hashTableFull := by
  induction js with
  | nil => rfl
  | cons j js ih =>
    obtain ⟨hlo, hhi⟩ := probeIndex_bounds hhash (hjs j List.mem_cons_self)
    have hbounds : (probeIndex L key j).toNat ≤ L ∧ (probeIndex L key j).toNat ≠ 0 := by omega
    have hfree : (t.keys (probeIndex L key j).toNat = emptyValue ∨ t.keys (probeIndex L key j).toNat = key) ↔
        (t.cell L (probeIndex L key j).toNat = none ∨ t.cell L (probeIndex L key j).toNat = some (some key)) := by
      simp only [Table.cell, hbounds.1, hbounds.2, true_and, if_false]
      by_cases hempty : t.keys (probeIndex L key j).toNat = emptyValue <;> simp [hempty]
    unfold probe
    rw [if_pos (by omega)]
    simp only [hfree]
    rw [ih fun l hl => hjs l (List.mem_cons_of_mem _ hl)]
    unfold locate
    rw [List.map_cons, List.find?_cons]
    split_ifs with h
    · simp [h]
    · simp [h]

/-! ## Runs -/

theorem bind_eq_ok {α β : Type} {x : Except Fault α} {f : α → Except Fault β} {r : β} :
    (x >>= f) = .ok r ↔ ∃ a, x = .ok a ∧ f a = .ok r := by
  cases x with
  | error e => simp [bind, Except.bind]
  | ok a => simp [bind, Except.bind]

/-- what the slots accumulate from some rows, in a table that had the keys `known` before them -/
abbrev HoldsRows (agg : AggregationFunction) (L m : ℕ) (known : List (Option (IntN w))) (t : Table w V)
    (rows : List (Row w V)) : Prop :=
  Grouped (path L) GroupByBuckets.Row.key (Bucket.put agg m) (Bucket.start agg) known (t.view L) rows

theorem holdsRows_create (agg : AggregationFunction) (L m : ℕ) :
    HoldsRows agg L m [] (Table.create agg : Table w V) [] := by
  have hcell : ∀ i, (Table.create agg : Table w V).cell L i = none := fun i => by simp [Table.cell, Table.create]
  refine ⟨fun i k h => ?_, fun k h => ?_, fun i k h => ?_, fun i _ => rfl, fun i k h => ?_⟩
  · cases (hcell i).symm.trans h
  · simp at h
  · cases (hcell i).symm.trans h
  · cases (hcell i).symm.trans h

omit [BoundedOrder V] in
/-- a row goes to the slot of its key -/
theorem processRow_ok {agg : AggregationFunction} {L m : ℕ} {t t' : Table w V} {row : Row w V}
    (hkey : ∀ key, row.key = some key → Hashable L key) (hrow : processRow agg L m t row = .ok t') :
    ∃ i, locate (t.cell L) (path L row.key) row.key = some i ∧
      t'.view L = (t.view L).insert (Bucket.put agg m) i row.key row := by
  unfold processRow at hrow
  cases hk : row.key with
  | none =>
    simp only [hk, Except.ok.injEq] at hrow
    subst hrow
    refine ⟨0, ?_, ?_⟩
    · by_cases hempty : t.keys 0 = emptyValue <;> simp [locate, path, Table.cell, hempty]
    · rw [← hk]
      exact view_store (Nat.zero_le L) zero_ne_emptyValue (by simp [hk])
  | some key =>
    simp only [hk] at hrow
    have hhash := hkey key hk
    obtain ⟨index, hindex, hrow⟩ := bind_eq_ok.1 hrow
    cases hrow
    rw [probe_eq_locate (hash_nonneg hhash) fun j hj => List.mem_range.1 hj] at hindex
    cases hlocate : locate (t.cell L) (path L (some key)) (some key) with
    | none =>
      have hfull := hlocate
      simp only [path] at hfull
      rw [hfull] at hindex
      cases hindex
    | some i =>
      have hfound := hlocate
      simp only [path] at hfound
      rw [hfound] at hindex
      cases hindex
      refine ⟨index, rfl, ?_⟩
      obtain ⟨pre, post, hpath, -, -⟩ := locate_prefix hfound
      have hmem : index ∈ (List.range L).map fun j => (probeIndex L key j).toNat := by
        rw [hpath]
        simp
      obtain ⟨j, hj, rfl⟩ := List.mem_map.1 hmem
      obtain ⟨hlo, hhi⟩ := probeIndex_bounds (hash_nonneg hhash) (List.mem_range.1 hj)
      rw [← hk]
      exact view_store (by omega) hhash.1 (by rw [if_neg (by omega), hk])

theorem processRow_holdsRows {agg : AggregationFunction} {L m : ℕ} {known : List (Option (IntN w))} {t t' : Table w V}
    {rows : List (Row w V)} {row : Row w V} (h : HoldsRows agg L m known t rows)
    (hkey : ∀ key, row.key = some key → Hashable L key) (hrow : processRow agg L m t row = .ok t') :
    HoldsRows agg L m known t' (rows ++ [row]) := by
  obtain ⟨i, hi, hview⟩ := processRow_ok hkey hrow
  unfold HoldsRows
  rw [hview]
  exact h.insert hi

/-- rows one after the other -/
theorem foldlM_holdsRows {agg : AggregationFunction} {L m : ℕ} {known : List (Option (IntN w))} {t t' : Table w V}
    {rows more : List (Row w V)} (h : HoldsRows agg L m known t rows)
    (hkeys : ∀ row ∈ more, ∀ key, row.key = some key → Hashable L key)
    (hrun : more.foldlM (processRow agg L m) t = .ok t') : HoldsRows agg L m known t' (rows ++ more) := by
  induction more generalizing t rows with
  | nil =>
    cases hrun
    simpa using h
  | cons row more ih =>
    rw [List.foldlM_cons] at hrun
    obtain ⟨t₁, hrow, hrun⟩ := bind_eq_ok.1 hrun
    have h₁ := processRow_holdsRows h (hkeys row List.mem_cons_self) hrow
    have hrest := ih h₁ (fun r hr => hkeys r (List.mem_cons_of_mem _ hr)) hrun
    rwa [List.append_assoc, List.singleton_append] at hrest

omit [BoundedOrder V] in
/-- keys that the table can hold stay within it -/
theorem foldlM_error {agg : AggregationFunction} {L m : ℕ} {t : Table w V} {rows : List (Row w V)} {e : Fault}
    (hkeys : ∀ row ∈ rows, ∀ key, row.key = some key → Hashable L key)
    (hrun : rows.foldlM (processRow agg L m) t = .error e) : e = .hashTableFull := by
  induction rows generalizing t with
  | nil => cases hrun
  | cons row rows ih =>
    rw [List.foldlM_cons] at hrun
    cases hrow : processRow agg L m t row with
    | ok t₁ =>
      rw [hrow] at hrun
      exact ih (fun r hr => hkeys r (List.mem_cons_of_mem _ hr)) hrun
    | error e' =>
      rw [hrow] at hrun
      cases hrun
      unfold processRow at hrow
      cases hk : row.key with
      | none => simp [hk] at hrow
      | some key =>
        have hhash := hash_nonneg (hkeys row List.mem_cons_self key hk)
        simp only [hk, probe_eq_locate hhash fun j hj => List.mem_range.1 hj] at hrow
        generalize locate (t.cell L) _ _ = found at hrow
        cases found with
        | none =>
          cases hrow
          rfl
        | some i => cases hrow

/-- blocks one after the other are one block -/
theorem foldlM_flatten {α β : Type} (f : β → α → Except Fault β) (b : β) (blocks : List (List α)) :
    blocks.foldlM (fun b block => block.foldlM f b) b = blocks.flatten.foldlM f b := by
  induction blocks generalizing b with
  | nil => rfl
  | cons block blocks ih =>
    rw [List.foldlM_cons, List.flatten_cons, List.foldlM_append]
    simp only [ih]

/-! ## Capacity -/

/-- a key tries every slot but the one of NULL -/
theorem mem_path {L i : ℕ} {key : IntN w} (hhash : 0 ≤ hash L key) (hlo : 1 ≤ i) (hhi : i ≤ L) :
    i ∈ path L (some key) := by
  have hpos : (0 : ℤ) < L := by omega
  have hrem := Int.emod_nonneg ((i : ℤ) - 1 - hash L key) hpos.ne'
  have hlt := Int.emod_lt_of_pos ((i : ℤ) - 1 - hash L key) hpos
  refine List.mem_map.2 ⟨(((i : ℤ) - 1 - hash L key) % L).toNat, List.mem_range.2 (by omega), ?_⟩
  have hindex : probeIndex L key (((i : ℤ) - 1 - hash L key) % L).toNat = i := by
    unfold probeIndex
    rw [Int.toNat_of_nonneg hrem, Int.tmod_eq_emod_of_nonneg (by omega), Int.add_emod_emod]
    have hcancel : hash L key + ((i : ℤ) - 1 - hash L key) = i - 1 := by ring
    rw [hcancel, Int.emod_eq_of_lt (by omega) (by omega)]
    ring
  rw [hindex, Int.toNat_natCast]

/-- the keys of rows that are not NULL -/
def keysOf (rows : List (Row w V)) : Finset (IntN w) := (rows.filterMap GroupByBuckets.Row.key).toFinset

omit [LinearOrder V] [BoundedOrder V] [AddCommMonoid V] in
theorem mem_keysOf {rows : List (Row w V)} {key : IntN w} :
    key ∈ keysOf rows ↔ ∃ row ∈ rows, row.key = some key := by
  simp [keysOf, List.mem_filterMap]

omit [LinearOrder V] [BoundedOrder V] [AddCommMonoid V] in
/-- a slot with a key -/
theorem cell_eq_some {t : Table w V} {L i : ℕ} {key : IntN w} (h : t.cell L i = some (some key)) :
    1 ≤ i ∧ i ≤ L ∧ t.keys i = key := by
  unfold Table.cell at h
  split_ifs at h with hi hzero
  · cases h
  · exact ⟨Nat.one_le_iff_ne_zero.2 hzero, hi.1, Option.some.inj (Option.some.inj h)⟩

variable {agg : AggregationFunction} {L m : ℕ} {t : Table w V} {rows : List (Row w V)}

/-- there are no more keys than slots -/
theorem card_le (h : HoldsRows agg L m [] t rows) : (keysOf rows).card ≤ L := by
  have hslot : ∀ key ∈ keysOf rows, ∃ i ∈ Finset.Icc 1 L, t.keys i = key := by
    intro key hkey
    obtain ⟨i, hi⟩ := h.stored (some key) (.inr (mem_keysOf.1 hkey))
    obtain ⟨hlo, hhi, heq⟩ := cell_eq_some hi
    exact ⟨i, Finset.mem_Icc.2 ⟨hlo, hhi⟩, heq⟩
  have hsubset : keysOf rows ⊆ (Finset.Icc 1 L).image t.keys := by
    intro key hkey
    obtain ⟨i, hi, heq⟩ := hslot key hkey
    exact Finset.mem_image.2 ⟨i, hi, heq⟩
  calc (keysOf rows).card ≤ ((Finset.Icc 1 L).image t.keys).card := Finset.card_le_card hsubset
    _ ≤ (Finset.Icc 1 L).card := Finset.card_image_le
    _ = L := by simp

/-- a key that finds no slot is one too many -/
theorem full_card (h : HoldsRows agg L m [] t rows) {key : IntN w} (hhash : 0 ≤ hash L key)
    (hfull : locate (t.cell L) (path L (some key)) (some key) = none) : key ∉ keysOf rows ∧ L ≤ (keysOf rows).card := by
  have hother : ∀ i ∈ path L (some key), t.cell L i ≠ none ∧ t.cell L i ≠ some (some key) := by
    intro i hi
    simpa [not_or] using List.find?_eq_none.1 hfull i hi
  constructor
  · intro hmem
    obtain ⟨i, hi⟩ := h.stored (some key) (.inr (mem_keysOf.1 hmem))
    obtain ⟨hlo, hhi, -⟩ := cell_eq_some hi
    exact (hother i (mem_path hhash hlo hhi)).2 hi
  · have hmaps : ∀ i ∈ Finset.Icc 1 L, t.cell L i = some (some (t.keys i)) := by
      intro i hi
      obtain ⟨hlo, hhi⟩ := Finset.mem_Icc.1 hi
      have hne := (hother i (mem_path hhash hlo hhi)).1
      unfold Table.cell at hne ⊢
      split_ifs at hne ⊢ with hocc hzero
      · omega
      · rfl
      · exact absurd rfl hne
    have hcard : (Finset.Icc 1 L).card ≤ (keysOf rows).card := by
      refine Finset.card_le_card_of_injOn t.keys (fun i hi => ?_) fun i hi j hj heq => ?_
      · rcases h.stems i _ (hmaps i hi) with hknown | hrow
        · cases hknown
        · exact mem_keysOf.2 hrow
      · have hj' := hmaps j hj
        rw [← heq] at hj'
        exact h.placed.injective (hmaps i hi) hj'
    simpa using hcard

/-- with enough slots no key is turned away -/
theorem foldlM_total (h : HoldsRows agg L m [] t rows) {more : List (Row w V)}
    (hkeys : ∀ row ∈ more, ∀ key, row.key = some key → Hashable L key) (hcard : (keysOf (rows ++ more)).card ≤ L) :
    ∃ t', more.foldlM (processRow agg L m) t = .ok t' := by
  induction more generalizing t rows with
  | nil => exact ⟨t, rfl⟩
  | cons row more ih =>
    have hrow : ∃ t₁, processRow agg L m t row = .ok t₁ := by
      unfold processRow
      cases hk : row.key with
      | none => exact ⟨_, rfl⟩
      | some key =>
        have hhash := hash_nonneg (hkeys row List.mem_cons_self key hk)
        simp only [probe_eq_locate hhash fun j hj => List.mem_range.1 hj]
        cases hlocate : locate (t.cell L) (path L (some key)) (some key) with
        | none =>
          -- the key would be one more than there are slots
          obtain ⟨hnew, hfull⟩ := full_card h hhash hlocate
          have hsubset : insert key (keysOf rows) ⊆ keysOf (rows ++ row :: more) := by
            intro k hmem
            rcases Finset.mem_insert.1 hmem with rfl | hmem
            · exact mem_keysOf.2 ⟨row, by simp, hk⟩
            · obtain ⟨r, hr, hrk⟩ := mem_keysOf.1 hmem
              exact mem_keysOf.2 ⟨r, List.mem_append_left _ hr, hrk⟩
          have hle := Finset.card_le_card hsubset
          rw [Finset.card_insert_of_notMem hnew] at hle
          omega
        | some i =>
          have hfound := hlocate
          simp only [path] at hfound
          simp only [hfound]
          exact ⟨_, rfl⟩
    obtain ⟨t₁, ht₁⟩ := hrow
    have h₁ := processRow_holdsRows h (hkeys row List.mem_cons_self) ht₁
    have happend : rows ++ [row] ++ more = rows ++ row :: more := by simp
    obtain ⟨t', ht'⟩ := ih h₁ (fun r hr => hkeys r (List.mem_cons_of_mem _ hr)) (by rwa [happend])
    refine ⟨t', ?_⟩
    rw [List.foldlM_cons, ht₁]
    exact ht'

/-! ## Results -/

theorem valueBufferMultiplier_pos {keySizeMultiplier : ℕ} (hpos : 0 < keySizeMultiplier) :
    0 < valueBufferMultiplier keySizeMultiplier := by
  unfold valueBufferMultiplier
  split_ifs with h
  · exact Nat.one_pos
  · exact Nat.div_pos (Nat.le_of_not_lt h) hpos

theorem read_getResults (t : Table w V) (agg : AggregationFunction) (maxHashCount keySizeMultiplier : ℕ) :
    (t.getResults agg maxHashCount keySizeMultiplier).map Group.read =
      (t.view (keyBufferSize maxHashCount keySizeMultiplier - 1)).groups
        (Bucket.result agg (valueBufferMultiplier keySizeMultiplier))
        (keyBufferSize maxHashCount keySizeMultiplier) := by
  unfold Table.getResults Probing.Table.groups
  rw [List.map_filterMap]
  refine List.filterMap_congr fun i hi => ?_
  have hle : i ≤ keyBufferSize maxHashCount keySizeMultiplier - 1 := by
    have := List.mem_range.1 hi
    omega
  by_cases hempty : t.keys i = emptyValue
  · simp [Table.view, Table.cell, hempty]
  · simp [Table.view, Table.cell, hempty, hle, Group.read]

omit [LinearOrder V] [BoundedOrder V] [AddCommMonoid V] in
theorem cell_lt {t : Table w V} {maxHashCount keySizeMultiplier i : ℕ} {k : Option (IntN w)}
    (h : t.cell (keyBufferSize maxHashCount keySizeMultiplier - 1) i = some k) :
    i < keyBufferSize maxHashCount keySizeMultiplier := by
  have hcell : i ≤ keyBufferSize maxHashCount keySizeMultiplier - 1 ∧ t.keys i ≠ emptyValue := by
    by_contra hnot
    have hnone : t.cell (keyBufferSize maxHashCount keySizeMultiplier - 1) i = none := if_neg hnot
    cases hnone.symm.trans h
  have : 0 < keyBufferSize maxHashCount keySizeMultiplier := Nat.succ_pos _
  omega

/-- what blocks of keys that the table can hold leave in its slots -/
theorem groups_of_run {β : Type} {agg : AggregationFunction} {maxHashCount keySizeMultiplier : ℕ}
    {blocks : List (List (Row w V))} {t : Table w V} {finish : Bucket V → β} {value : List (Row w V) → β}
    (hrun : processBlocks agg maxHashCount keySizeMultiplier blocks = .ok t)
    (hkeys : ∀ row ∈ blocks.flatten, ∀ key, row.key = some key →
      Hashable (keyBufferSize maxHashCount keySizeMultiplier - 1) key)
    (hfinish : ∀ l : List (Row w V),
      finish (l.foldl (Bucket.put agg (valueBufferMultiplier keySizeMultiplier)) (Bucket.start agg)) = value l) :
    GroupsBy GroupByBuckets.Row.key value blocks.flatten
      ((t.view (keyBufferSize maxHashCount keySizeMultiplier - 1)).groups finish
        (keyBufferSize maxHashCount keySizeMultiplier)) := by
  unfold processBlocks at hrun
  rw [foldlM_flatten] at hrun
  have hholds := foldlM_holdsRows (holdsRows_create agg _ _) hkeys hrun
  exact hholds.groupsBy (by simp) (fun i k hi => cell_lt hi) hfinish

/-- keys that the table can hold are grouped -/
theorem groups_of_hashable {agg : AggregationFunction} {maxHashCount keySizeMultiplier : ℕ}
    (hpos : 0 < keySizeMultiplier) {blocks : List (List (Row w V))} {t : Table w V}
    (hrun : processBlocks agg maxHashCount keySizeMultiplier blocks = .ok t)
    (hkeys : ∀ row ∈ blocks.flatten, ∀ key, row.key = some key →
      Hashable (keyBufferSize maxHashCount keySizeMultiplier - 1) key) :
    GroupsBy GroupByBuckets.Row.key (aggregate agg) blocks.flatten
      ((t.getResults agg maxHashCount keySizeMultiplier).map Group.read) := by
  rw [read_getResults]
  exact groups_of_run hrun hkeys fun l => result_foldl agg (valueBufferMultiplier_pos hpos) l

/-! ## Keys that the table cannot hold -/

theorem mersenne_prime : Nat.Prime (2 ^ 31 - 1) :=
  lucas_lehmer_sufficiency 31 (by decide) (by norm_num)

/-- no table size leaves the remainder 1 -/
theorem two_le_mod {L : ℕ} (hpos : 0 < L) (hmax : L ≤ bufferSizeMax) (hdvd : ¬ L ∣ 2 ^ 31) : 2 ≤ 2 ^ 31 % L := by
  have hne : 2 ^ 31 % L ≠ 0 := fun h => hdvd (Nat.dvd_of_mod_eq_zero h)
  have hone : 2 ^ 31 % L ≠ 1 := by
    intro h
    have hprime : L ∣ 2 ^ 31 - 1 := by
      rw [← h]
      exact Nat.dvd_sub_mod _
    rcases mersenne_prime.eq_one_or_self_of_dvd L hprime with rfl | rfl
    · exact hdvd (one_dvd _)
    · exact absurd hmax (by decide)
  omega

/-- INT32_MIN starts below the table -/
theorem probe_min {keys : ℕ → IntN w} {L : ℕ} (hmax : L ≤ bufferSizeMax) {key : IntN w}
    (hmin : (IntN.wrap 32 key.val).val = -2 ^ 31) (hdvd : ¬ L ∣ 2 ^ 31) (i : ℕ) :
    probe keys L key (List.range L) ≠ .ok i := by
  cases L with
  | zero => simp [probe]
  | succ L =>
    have hmod := two_le_mod (Nat.succ_pos L) hmax hdvd
    have hhash : hash (L + 1) key = -((2 ^ 31 % (L + 1) : ℕ) : ℤ) := by
      unfold hash
      rw [abs32_eq (by rw [hmin]) (by rw [hmin]; decide), if_pos hmin, hmin, Int.neg_tmod]
      rfl
    have hindex : probeIndex (L + 1) key 0 < 0 := by
      unfold probeIndex
      rw [hhash]
      have hlt : 2 ^ 31 % (L + 1) < L + 1 := Nat.mod_lt _ (Nat.succ_pos L)
      have hsmall : (-((2 ^ 31 % (L + 1) : ℕ) : ℤ) + (0 : ℕ)).tmod ((L + 1 : ℕ) : ℤ) =
          -((2 ^ 31 % (L + 1) : ℕ) : ℤ) := by
        rw [Nat.cast_zero, add_zero, Int.neg_tmod, Int.tmod_eq_of_lt (by positivity) (by exact_mod_cast hlt)]
      have hcast : (2 : ℤ) ≤ ((2 ^ 31 % (L + 1) : ℕ) : ℤ) := by exact_mod_cast hmod
      rw [hsmall]
      linarith
    rw [List.range_succ_eq_map]
    unfold probe
    rw [if_neg fun h => absurd h.1 (not_le.2 hindex)]
    simp

omit [BoundedOrder V] in
theorem foldlM_mem {agg : AggregationFunction} {L m : ℕ} {t t' : Table w V} {rows : List (Row w V)}
    (hrun : rows.foldlM (processRow agg L m) t = .ok t') {row : Row w V} (hrow : row ∈ rows) :
    ∃ t₁ t₂, processRow agg L m t₁ row = .ok t₂ := by
  induction rows generalizing t with
  | nil => cases hrow
  | cons r rows ih =>
    rw [List.foldlM_cons] at hrun
    obtain ⟨t₁, hr, hrun⟩ := bind_eq_ok.1 hrun
    rcases List.mem_cons.1 hrow with rfl | hrow
    · exact ⟨t, t₁, hr⟩
    · exact ih hrun hrow

theorem hashable_of_groups {agg : AggregationFunction} {maxHashCount keySizeMultiplier : ℕ}
    {blocks : List (List (Row w V))} {t : Table w V}
    (hrun : processBlocks agg maxHashCount keySizeMultiplier blocks = .ok t)
    (hgroups : GroupsBy GroupByBuckets.Row.key (aggregate agg) blocks.flatten
      ((t.getResults agg maxHashCount keySizeMultiplier).map Group.read))
    {row : Row w V} (hrow : row ∈ blocks.flatten) {key : IntN w} (hkey : row.key = some key) :
    Hashable (keyBufferSize maxHashCount keySizeMultiplier - 1) key := by
  constructor
  · rintro rfl
    -- a free slot is not among the results
    have hmem := (hgroups.keys (some emptyValue)).2 ⟨row, hrow, hkey⟩
    simp only [List.map_map, List.mem_map, Table.getResults, List.mem_filterMap] at hmem
    obtain ⟨g, ⟨i, -, hg⟩, hread⟩ := hmem
    split_ifs at hg with hne
    cases hg
    simp only [Function.comp_apply, Group.read] at hread
    split_ifs at hread
    exact hne (Option.some.inj hread)
  · intro hmin
    by_contra hdvd
    unfold processBlocks at hrun
    rw [foldlM_flatten] at hrun
    obtain ⟨t₁, t₂, hstep⟩ := foldlM_mem hrun hrow
    unfold processRow at hstep
    simp only [hkey] at hstep
    obtain ⟨i, hi, -⟩ := bind_eq_ok.1 hstep
    have hmax : keyBufferSize maxHashCount keySizeMultiplier - 1 ≤ bufferSizeMax := by
      unfold keyBufferSize
      omega
    exact probe_min hmax hmin hdvd i hi

/-- two rows of 7 and one of NULL, SUM in a table of 4 keys -/
def sumRows : List (List (Row 32 Int64T)) :=
  [[⟨some (IntN.wrap 32 7), some (IntN.wrap 64 1), 0⟩, ⟨none, none, 1⟩],
    [⟨some (IntN.wrap 32 7), some (IntN.wrap 64 2), 5⟩]]

def reportsFull {α : Type} : Except Fault α → Bool
  | .error .hashTableFull => true
  | _ => false

/-- the least int32 is the mark of a free slot -/
def lowestRow : List (List (Row 32 Int64T)) := [[⟨some (IntN.lowest 32), some (IntN.wrap 64 1), 0⟩]]

end QikkDB.GroupByTable

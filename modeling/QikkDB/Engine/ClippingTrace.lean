/-
Tracing the outline of a clipped polygon (GPUPolygonClipping.cuh, `clip_polygons`, the walk through the two lists).

From an intersection the walk follows one list to the next intersection, forward or backward by its label, and goes on
from there in the other list, until it comes to an intersection that was processed. When every ring has an even number
of intersections the labels pair the intersections of each list, and the walk takes the two partners in turn.

- a list is false for A and true for B;
- `turnTable` is that of the operation;
- the numbers of the intersections of a row are the same in both lists.

Results:
- `exists_partner`: the walks along one list pair its intersections.
- `component_run`: a walk ends where it began, in the list in which it began.
- `traceLoop_traced`: the components of a row have each intersection once.
-/
import Mathlib.Tactic
import QikkDB.Lib.Partners
import QikkDB.Engine.ClippingLabels

namespace QikkDB.PolygonClipping

open Loops PrefixSum PolygonColumn Rings Partners

/-! ## The walk -/

/-- turnTable -/
def polyIntersect : Bool → Bool := fun _ => true

def polyUnion : Bool → Bool := fun _ => false

/-- the links by which the walk moves -/
def direction (buffer : Buffer) (forward : Bool) : Links ℕ := if forward then links buffer else (links buffer).flip

/-- do { write the point; move } while (it is no intersection) -/
def along (m : Links ℕ) (buffer : Buffer) : ℕ → ℕ → Option (List NativeGeoPoint × ℕ)
  | 0, _ => none
  | fuel + 1, idx => do
    let nextIdx ← m.next idx
    if (buffer nextIdx).isIntersection then some ([(buffer idx).vertex], nextIdx)
    else do
      let (points, last) ← along m buffer fuel nextIdx
      some ((buffer idx).vertex :: points, last)

def setWasProcessed (buffer : Buffer) (i : ℕ) (flag : Bool) : Buffer :=
  Function.update buffer i { buffer i with wasProcessed := flag }

/-- llPolygonBuffersTable -/
abbrev Table := Bool → Buffer

def Table.process (table : Table) (turnNumber : Bool) (i : ℕ) : Table :=
  Function.update table turnNumber (setWasProcessed (table turnNumber) i true)

/-- do { process both nodes of an intersection; walk to the next one; turn } while (that one was not processed) -/
def component (turnTable : Bool → Bool) (inner : ℕ) : ℕ → Table → Bool → ℕ → Option (List NativeGeoPoint × Table × Bool)
  | 0, _, _, _ => none
  | fuel + 1, table, turnNumber, nextIdx => do
    let table := table.process turnNumber nextIdx
    let crossIdx ← (table turnNumber nextIdx).crossIdx
    let table := table.process (!turnNumber) crossIdx
    let forward := (table turnNumber nextIdx).isEntry == turnTable turnNumber
    let (points, last) ← along (direction (table turnNumber) forward) (table turnNumber) inner nextIdx
    let crossIdx ← (table turnNumber last).crossIdx
    if (table (!turnNumber) crossIdx).wasProcessed then some (points, table, !turnNumber)
    else do
      let (rest, table, turnNumber) ← component turnTable inner fuel table (!turnNumber) crossIdx
      some (points ++ rest, table, turnNumber)

/-- the loop over the intersections of A; turnNumber is carried over from one component to the next -/
def traceLoop (turnTable : Bool → Bool) (inner outer begIdxA endIdxA : ℕ) (table : Table) :
    Option (List (List NativeGeoPoint) × Table × Bool) :=
  (List.range' begIdxA (endIdxA - begIdxA)).foldlM (fun (s : List (List NativeGeoPoint) × Table × Bool) point =>
    if (s.2.1 s.2.2 point).wasProcessed then some s
    else do
      let (points, table, turnNumber) ← component turnTable inner outer s.2.1 s.2.2 point
      some (s.1 ++ [points], table, turnNumber)) ([], table, false)

/-! ## The outline of one list -/

/-- The intersections of a list: node `n + i` is intersection `i`, and in both directions there is a next one, with the
other label. -/
structure Outline (start n K cross : ℕ) (buffer : Buffer) : Prop where
  marked : ∀ i < K, (buffer (start + (n + i))).isIntersection = true
  crossIdx : ∀ i < K, (buffer (start + (n + i))).crossIdx = some (cross + i)
  unprocessed : ∀ i < K, (buffer (start + (n + i))).wasProcessed = false
  hop : ∀ i < K, ∀ forward, ∃ between, ∃ i' < K,
    Links.Hop (direction buffer forward) (fun x => (buffer x).isIntersection) (start + (n + i))
      between (start + (n + i')) ∧
      (buffer (start + (n + i'))).isEntry = (!(buffer (start + (n + i))).isEntry) ∧
      between.length ≤ n + K ∧ ∀ x ∈ between, start ≤ x ∧ x < start + (n + K)

section Rows

variable {distance : LLPolyVertex → ℚ} {start cross : ℕ} {row other : List (List NativeGeoPoint)}
  {edge : Edge × Edge → Edge} {cs : List (Edge × Edge)} {buffer : Buffer} {chain : ℕ → List ℕ}

/-- every sub-polygon has an even number of intersections on its edges -/
def EvenCrossings (edge : Edge × Edge → Edge) (cs : List (Edge × Edge)) (row : List (List NativeGeoPoint)) : Prop :=
  ∀ j (hj : j < row.length), Even (crossingCount edge cs (offset row j) row[j].length)

theorem ClippingList.nodeFlags (h : ClippingList distance start row edge cross cs buffer chain) {i : ℕ}
    (hi : i < cs.length) :
    (buffer (start + (row.flatten.length + i))).isIntersection = true ∧
      (buffer (start + (row.flatten.length + i))).crossIdx = some (cross + i) ∧
      (buffer (start + (row.flatten.length + i))).wasProcessed = false := by
  have hnode := h.node i _ (List.getElem?_eq_getElem hi)
  exact ⟨(congrArg (·.isIntersection) hnode).trans (isIntersection_calcIntersect _ _ _ _), congrArg (·.crossIdx) hnode,
    (congrArg (·.wasProcessed) hnode).trans (wasProcessed_calcIntersect _ _ _ _)⟩

/-- **A labelled list has an outline** if its rings have an even number of intersections. -/
theorem LabelledList.outline (h : LabelledList distance start row other edge cross cs buffer chain)
    (hpoints : ∀ polygon ∈ row, polygon ≠ []) (hedges : ∀ e ∈ cs, edge e ∈ (rowEdges row).flatten)
    (heven : EvenCrossings edge cs row) : Outline start row.flatten.length cs.length cross buffer where
  marked i hi := (h.list.nodeFlags hi).1
  crossIdx i hi := (h.list.nodeFlags hi).2.1
  unprocessed i hi := (h.list.nodeFlags hi).2.2
  hop i hi forward := by
    obtain ⟨j, hj, hmem⟩ := h.list.mem_ring hedges hi
    have hring := h.list.ring j hj
    have hmark := (h.list.nodeFlags hi).1
    have hcount := h.list.countP_isIntersection hj
    obtain ⟨p, hp⟩ : ∃ p, row[j].head? = some p := by
      obtain ⟨p, points, hpoint⟩ := List.exists_cons_of_ne_nil (hpoints _ (List.getElem_mem hj))
      exact ⟨p, by rw [hpoint]; rfl⟩
    have hlabels := h.labels j hj p hp
    have hparity := heven j hj
    rw [← hcount] at hparity
    have hhop : ∃ between y, y ∈ ringNodes start chain (offset row j) row[j].length ∧
        between.Subperm (ringNodes start chain (offset row j) row[j].length) ∧
        Links.Hop (direction buffer forward) (fun x => (buffer x).isIntersection) (start + (row.flatten.length + i))
          between y ∧
        (buffer y).isEntry = !(buffer (start + (row.flatten.length + i))).isEntry := by
      cases forward with
      | true => exact Links.exists_hop hring hlabels hparity hmem hmark
      | false => exact Links.exists_hop_flip hring hlabels hparity hmem hmark
    obtain ⟨between, y, hy, hsub, hhop, hlabel⟩ := hhop
    obtain ⟨i', hi', rfl⟩ := (h.list.isIntersection hj hy).1 hhop.marked
    exact ⟨between, i', hi', hhop, hlabel, hsub.length_le.trans (h.list.length_le hj), fun x hx =>
      h.list.range hj (hsub.subset hx)⟩

end Rows

/-! ## Partners -/

/-- a way along a list from intersection `i` to intersection `i'`, over the nodes between them -/
structure Way (start n K : ℕ) (buffer : Buffer) (entry : Bool) (i i' : ℕ) (between : List ℕ) : Prop where
  hop : Links.Hop (direction buffer ((buffer (start + (n + i))).isEntry == entry)) (fun x => (buffer x).isIntersection)
    (start + (n + i)) between (start + (n + i'))
  label : (buffer (start + (n + i'))).isEntry = !(buffer (start + (n + i))).isEntry
  short : between.length ≤ n + K
  inside : ∀ x ∈ between, start ≤ x ∧ x < start + (n + K)

section Walk

variable {start n K cross : ℕ} {buffer : Buffer}

theorem direction_not (buffer : Buffer) (forward : Bool) : direction buffer (!forward) =
    (direction buffer forward).flip := by
  cases forward <;> rfl

theorem Outline.exists_way (h : Outline start n K cross buffer) (entry : Bool) {i : ℕ} (hi : i < K) :
    ∃ i' < K, ∃ between, Way start n K buffer entry i i' between := by
  obtain ⟨between, i', hi', hhop, hlabel, hlen, hrange⟩ := h.hop i hi _
  exact ⟨i', hi', between, hhop, hlabel, hlen, hrange⟩

/-- the walk from there comes back -/
theorem Way.symm {entry : Bool} {i i' : ℕ} {between : List ℕ} (h : Way start n K buffer entry i i' between)
    (hi : (buffer (start + (n + i))).isIntersection = true) : Way start n K buffer entry i' i between.reverse where
  hop := by
    have hdir : ((buffer (start + (n + i'))).isEntry == entry) = !((buffer (start + (n + i))).isEntry == entry) := by
      rw [h.label]
      cases (buffer (start + (n + i))).isEntry <;> cases entry <;> rfl
    rw [hdir, direction_not]
    exact h.hop.flip hi
  label := by rw [h.label, Bool.not_not]
  short := by rw [List.length_reverse]; exact h.short
  inside x hx := h.inside x (List.mem_reverse.1 hx)

theorem along_hop {m : Links ℕ} {x y : ℕ} {between : List ℕ} (h :
    Links.Hop m (fun x => (buffer x).isIntersection) x between y)
    {fuel : ℕ} (hfuel : between.length < fuel) :
    along m buffer fuel x = some ((x :: between).map fun x => (buffer x).vertex, y) := by
  induction between generalizing x fuel with
  | nil =>
    obtain ⟨fuel, rfl⟩ : ∃ k, fuel = k + 1 := ⟨fuel - 1, by omega⟩
    have hlink := (List.isChain_cons_cons.1 h.path).1
    rw [along, hlink.1]
    simp only [Option.bind_eq_bind, Option.bind_some, h.marked, if_true]
    rfl
  | cons z between ih =>
    obtain ⟨fuel, rfl⟩ : ∃ k, fuel = k + 1 := ⟨fuel - 1, by omega⟩
    obtain ⟨hlink, hrest⟩ := List.isChain_cons_cons.1 h.path
    have hz : (buffer z).isIntersection = false := h.unmarked z List.mem_cons_self
    rw [along, hlink.1]
    simp only [Option.bind_eq_bind, Option.bind_some, hz, Bool.false_eq_true, if_false]
    rw [ih ⟨hrest, fun a ha => h.unmarked a (List.mem_cons_of_mem z ha), h.marked⟩ (by simpa using hfuel),
      Option.bind_some]
    rfl

theorem Way.unique {entry : Bool} {i i₁ i₂ : ℕ} {between₁ between₂ : List ℕ}
    (h₁ : Way start n K buffer entry i i₁ between₁) (h₂ : Way start n K buffer entry i i₂ between₂) : i₁ = i₂ := by
  have hwalk₁ := along_hop h₁.hop (Nat.lt_succ_of_le h₁.short)
  have hwalk₂ := along_hop h₂.hop (Nat.lt_succ_of_le h₂.short)
  rw [hwalk₁, Option.some.injEq, Prod.mk.injEq] at hwalk₂
  omega

/-- the walks along one list pair its intersections -/
theorem Outline.exists_partner (h : Outline start n K cross buffer) (entry : Bool) :
    ∃ α : ℕ → ℕ, ∃ between : ℕ → List ℕ, Paired {i | i < K} α ∧ ∀ i < K,
      Way start n K buffer entry i (α i) (between i) := by
  choose! α hα between hway using fun i (hi : i < K) => h.exists_way entry hi
  refine ⟨α, between, ⟨fun i hi => hα i hi, fun i hi => ?_, fun i hi heq => ?_⟩, hway⟩
  · exact (hway (α i) (hα i hi)).unique ((hway i hi).symm (h.marked i hi))
  · have hlabel := (hway i hi).label
    rw [heq] at hlabel
    cases hentry : (buffer (start + (n + i))).isEntry <;> rw [hentry] at hlabel <;> cases hlabel

end Walk

/-! ## Both lists of a row -/

/-- a node but for its flag wasProcessed -/
def unprocessed (v : LLPolyVertex) : LLPolyVertex := { v with wasProcessed := false }

/-- the node of intersection `i` in a list -/
def node (start n : Bool → ℕ) (turnNumber : Bool) (i : ℕ) : ℕ := start turnNumber + (n turnNumber + i)

theorem unprocessed_process (table : Table) (turnNumber turnNumber' : Bool) (i x : ℕ) :
    unprocessed (table.process turnNumber i turnNumber' x) = unprocessed (table turnNumber' x) := by
  by_cases h : turnNumber' = turnNumber
  · subst h
    rw [Table.process, Function.update_self, setWasProcessed]
    by_cases hx : x = i
    · rw [hx, Function.update_self]
      rfl
    · rw [Function.update_of_ne hx]
  · rw [Table.process, Function.update_of_ne h]

theorem process_self (table : Table) (turnNumber : Bool) (i : ℕ) :
    (table.process turnNumber i turnNumber i).wasProcessed = true := by
  rw [Table.process, Function.update_self, setWasProcessed, Function.update_self]

theorem process_of_ne (table : Table) {turnNumber turnNumber' : Bool} {i x : ℕ}
    (h : turnNumber' ≠ turnNumber ∨ x ≠ i) : table.process turnNumber i turnNumber' x = table turnNumber' x := by
  by_cases hne : turnNumber' = turnNumber
  · subst hne
    rw [Table.process, Function.update_self, setWasProcessed, Function.update_of_ne (h.resolve_left fun hn => hn rfl)]
  · rw [Table.process, Function.update_of_ne hne]

section Row

variable {start n : Bool → ℕ} {K : ℕ} {table₀ table : Table} {P : Set ℕ}

/-- the processed intersections are those of `P`; otherwise the lists are as they were -/
structure Processed (start n : Bool → ℕ) (K : ℕ) (table₀ table : Table) (P : Set ℕ) : Prop where
  flag : ∀ turnNumber, ∀ i < K, (table turnNumber (node start n turnNumber i)).wasProcessed = true ↔ i ∈ P
  same : ∀ turnNumber x, unprocessed (table turnNumber x) = unprocessed (table₀ turnNumber x)
  outside : ∀ turnNumber x, (∀ i < K, x ≠ node start n turnNumber i) → table turnNumber x = table₀ turnNumber x

/-- one intersection more -/
theorem Processed.process (h : Processed start n K table₀ table P) (turnNumber : Bool) {i : ℕ} (hi : i < K) :
    Processed start n K table₀ ((table.process turnNumber (node start n turnNumber i)).process (!turnNumber)
      (node start n (!turnNumber) i)) (insert i P) where
  flag turnNumber' k hk := by
    by_cases hki : k = i
    · subst hki
      refine iff_of_true ?_ (Set.mem_insert _ _)
      by_cases hside : turnNumber' = !turnNumber
      · rw [hside, process_self]
      · have hsame : turnNumber' = turnNumber := by simpa using hside
        rw [process_of_ne _ (.inl hside), hsame, process_self]
    · have hne : node start n turnNumber' k ≠ node start n turnNumber' i := fun heq => hki (by
        rw [node, node] at heq
        omega)
      have hkeep : ∀ table : Table, ∀ side, table.process side (node start n side i) turnNumber'
          (node start n turnNumber' k) = table turnNumber' (node start n turnNumber' k) := fun table side =>
        process_of_ne table (by
          by_cases hside : turnNumber' = side
          · exact .inr (hside ▸ hne)
          · exact .inl hside)
      rw [hkeep, hkeep, h.flag turnNumber' k hk, Set.mem_insert_iff, or_iff_right hki]
  same turnNumber' x := by rw [unprocessed_process, unprocessed_process, h.same]
  outside turnNumber' x hx := by
    have hkeep : ∀ table : Table, ∀ side, table.process side (node start n side i) turnNumber' x =
      table turnNumber' x :=
      fun table side => process_of_ne table (by
        by_cases hside : turnNumber' = side
        · exact .inr (hside ▸ hx i hi)
        · exact .inl hside)
    rw [hkeep, hkeep, h.outside turnNumber' x hx]

/-- the ways in both lists, and how the lists are connected -/
structure Ways (turnTable : Bool → Bool) (start n : Bool → ℕ) (K : ℕ) (table : Table) (next : Bool → ℕ → ℕ)
    (between : Bool → ℕ → List ℕ) : Prop where
  paired : ∀ turnNumber, Paired {i | i < K} (next turnNumber)
  way : ∀ turnNumber, ∀ i < K, Way (start turnNumber) (n turnNumber) K (table turnNumber) (turnTable turnNumber) i
    (next turnNumber i) (between turnNumber i)
  crossIdx : ∀ turnNumber, ∀ i < K,
    (table turnNumber (node start n turnNumber i)).crossIdx = some (node start n (!turnNumber) i)

theorem exists_ways (turnTable : Bool → Bool)
    (h : ∀ turnNumber, Outline (start turnNumber) (n turnNumber) K (start (!turnNumber) + n (!turnNumber))
      (table turnNumber)) : ∃ next between, Ways turnTable start n K table next between := by
  choose next between hpaired hway using fun turnNumber => (h turnNumber).exists_partner (turnTable turnNumber)
  refine ⟨next, between, hpaired, hway, fun turnNumber i hi => ?_⟩
  rw [node, (h turnNumber).crossIdx i hi, node, Nat.add_assoc]

variable {turnTable : Bool → Bool} {next : Bool → ℕ → ℕ} {between : Bool → ℕ → List ℕ}

/-- the flags do not change the way -/
theorem Ways.along (hways : Ways turnTable start n K table₀ next between) (h : Processed start n K table₀ table P)
    {turnNumber : Bool} {i inner : ℕ} (hi : i < K) (hinner : n turnNumber + K < inner) :
    along (direction (table turnNumber) ((table turnNumber (node start n turnNumber i)).isEntry ==
      turnTable turnNumber))
        (table turnNumber) inner (node start n turnNumber i) =
      some ((node start n turnNumber i :: between turnNumber i).map fun x => (table₀ turnNumber x).vertex,
        node start n turnNumber (next turnNumber i)) := by
  have hway := hways.way turnNumber i hi
  have hsame := h.same turnNumber
  have hmark : ∀ x, (table turnNumber x).isIntersection = (table₀ turnNumber x).isIntersection := fun x =>
    congrArg (·.isIntersection) (hsame x)
  have hvertex : ∀ x, (table turnNumber x).vertex = (table₀ turnNumber x).vertex :=
    fun x => congrArg (·.vertex) (hsame x)
  have hentry : ∀ x, (table turnNumber x).isEntry = (table₀ turnNumber x).isEntry :=
    fun x => congrArg (·.isEntry) (hsame x)
  have hnext : ∀ x, (table turnNumber x).nextIdx = (table₀ turnNumber x).nextIdx :=
    fun x => congrArg (·.nextIdx) (hsame x)
  have hprev : ∀ x, (table turnNumber x).prevIdx = (table₀ turnNumber x).prevIdx :=
    fun x => congrArg (·.prevIdx) (hsame x)
  have hdir : direction (table turnNumber) = direction (table₀ turnNumber) := by
    funext forward
    simp only [direction, links, hnext, hprev]
  have hhop := hway.hop
  simp only [← hmark, ← hentry, ← hdir] at hhop
  have hwalk := along_hop hhop (hway.short.trans_lt hinner)
  simp only [hvertex] at hwalk
  exact hwalk

/-! ## Legs -/

/-- the part of a component from one intersection to the next one -/
structure Leg where
  turnNumber : Bool
  first : ℕ
  between : List ℕ
  last : ℕ

def Leg.points (start n : Bool → ℕ) (table : Table) (leg : Leg) : List NativeGeoPoint :=
  (node start n leg.turnNumber leg.first :: leg.between).map fun x => (table leg.turnNumber x).vertex

/-- a leg begins where the one before ends, in the other list -/
def Follows (a b : Leg) : Prop := b.first = a.last ∧ b.turnNumber = !a.turnNumber

/-- legs that begin in A, follow each other and come back -/
def Loop (legs : List Leg) : Prop :=
  ∃ a rest, legs = a :: rest ∧ a.turnNumber = false ∧ (legs ++ [a]).IsChain Follows

def legFrom (next : Bool → ℕ → ℕ) (between : Bool → ℕ → List ℕ) (turnNumber : Bool) (i : ℕ) : Leg :=
  ⟨turnNumber, i, between turnNumber i, next turnNumber i⟩

def legsFrom (next : Bool → ℕ → ℕ) (between : Bool → ℕ → List ℕ) : ℕ → Bool → ℕ → List Leg
  | 0, _, _ => []
  | m + 1, turnNumber, i => legFrom next between turnNumber i ::
      legsFrom next between m (!turnNumber) (next turnNumber i)

/-- the intersections that come from `i` on, and the lists in which they come -/
abbrev arrival (next : Bool → ℕ → ℕ) (turnNumber : Bool) (i : ℕ) : ℕ → ℕ :=
  turn (next turnNumber) (next (!turnNumber)) i

theorem arrival_succ (next : Bool → ℕ → ℕ) (turnNumber : Bool) (i k : ℕ) :
    arrival next turnNumber i (k + 1) = arrival next (!turnNumber) (next turnNumber i) k := by
  rw [arrival, turn_succ, arrival, Bool.not_not]

theorem first_legsFrom (turnNumber : Bool) (i m : ℕ) :
    (legsFrom next between m turnNumber i).map Leg.first = (List.range m).map (arrival next turnNumber i) := by
  induction m generalizing turnNumber i with
  | zero => rfl
  | succ m ih =>
    rw [legsFrom, List.map_cons, ih, List.range_succ_eq_map, List.map_cons, List.map_map]
    refine congrArg₂ List.cons rfl (List.map_congr_left fun k _ => (arrival_succ next turnNumber i k).symm)

theorem legsFrom_succ (turnNumber : Bool) (i m : ℕ) : legsFrom next between (m + 1) turnNumber i =
    legsFrom next between m turnNumber i ++ [legFrom next between (Bool.not^[m] turnNumber)
      (arrival next turnNumber i m)] := by
  induction m generalizing turnNumber i with
  | zero => rfl
  | succ m ih =>
    rw [legsFrom, ih, legsFrom, List.cons_append, arrival_succ]
    rfl

theorem isChain_legsFrom (turnNumber : Bool) (i m : ℕ) : (legsFrom next between m turnNumber i).IsChain Follows := by
  induction m generalizing turnNumber i with
  | zero => exact List.isChain_nil
  | succ m ih =>
    cases m with
    | zero => exact List.isChain_singleton _
    | succ m => exact List.isChain_cons_cons.2 ⟨⟨rfl, rfl⟩, ih (!turnNumber) (next turnNumber i)⟩

/-- an even number of legs that comes back is a loop -/
theorem loop_legsFrom {i m : ℕ} (heven : Even (m + 1)) (hreturn : arrival next false i (m + 1) = i) :
    Loop (legsFrom next between (m + 1) false i) := by
  refine ⟨_, _, rfl, rfl, ?_⟩
  have hside : Bool.not^[m + 1] false = false := by
    rw [Bool.involutive_not.iterate_even heven]
    rfl
  have hchain := @isChain_legsFrom next between false i (m + 2)
  rwa [legsFrom_succ, hside, hreturn] at hchain

theorem legFrom_of_mem {turnNumber : Bool} {i m : ℕ} {leg : Leg} (h : leg ∈ legsFrom next between m turnNumber i) :
    leg = legFrom next between leg.turnNumber leg.first := by
  induction m generalizing turnNumber i with
  | zero => cases h
  | succ m ih =>
    rcases List.mem_cons.1 h with rfl | h
    · rfl
    · exact ih h

theorem Ways.crossIdx_of (hways : Ways turnTable start n K table₀ next between)
    (h : Processed start n K table₀ table P) (turnNumber : Bool) {i : ℕ} (hi : i < K) :
    (table turnNumber (node start n turnNumber i)).crossIdx = some (node start n (!turnNumber) i) :=
  (congrArg (·.crossIdx) (h.same turnNumber _)).trans (hways.crossIdx turnNumber i hi)

/-- the body of the outer loop -/
theorem component_succ (hways : Ways turnTable start n K table₀ next between) {inner : ℕ} (fuel : ℕ) {turnNumber : Bool}
    {i : ℕ} (hinner : n turnNumber + K < inner) (hi : i < K) (h : Processed start n K table₀ table P) :
    ∃ table', Processed start n K table₀ table' (insert i P) ∧
      component turnTable inner (fuel + 1) table turnNumber (node start n turnNumber i) =
        if (table' (!turnNumber) (node start n (!turnNumber) (next turnNumber i))).wasProcessed then
          some ((legFrom next between turnNumber i).points start n table₀, table', !turnNumber)
        else (component turnTable inner fuel table' (!turnNumber)
          (node start n (!turnNumber) (next turnNumber i))).bind fun r =>
          some ((legFrom next between turnNumber i).points start n table₀ ++ r.1, r.2.1, r.2.2) := by
  have hprocessed := h.process turnNumber hi
  have hnext : next turnNumber i < K := (hways.paired turnNumber).mem i hi
  have hcross : (table.process turnNumber (node start n turnNumber i) turnNumber (node start n turnNumber i)).crossIdx =
      some (node start n (!turnNumber) i) :=
    (congrArg (·.crossIdx) (unprocessed_process table turnNumber turnNumber _ _)).trans
      (hways.crossIdx_of h turnNumber hi)
  refine ⟨_, hprocessed, ?_⟩
  rw [component]
  simp only [hcross, Option.bind_eq_bind, Option.bind_some]
  rw [hways.along hprocessed hi hinner, Option.bind_some]
  simp only
  rw [hways.crossIdx_of hprocessed turnNumber hnext, Option.bind_some]
  rfl

/-- **A component runs** until it comes to a processed intersection. -/
theorem component_run (hways : Ways turnTable start n K table₀ next between) {inner : ℕ}
    (hinner : ∀ turnNumber, n turnNumber + K < inner) {m fuel : ℕ} (hfuel : m < fuel) {turnNumber : Bool} {i : ℕ}
      (hi : i < K)
    (h : Processed start n K table₀ table P)
    (hfree : ∀ j < m, arrival next turnNumber i (j + 1) ∉ P ∪ arrival next turnNumber i '' Set.Iic j)
    (hstop : arrival next turnNumber i (m + 1) ∈ P ∪ arrival next turnNumber i '' Set.Iic m) :
    ∃ table', component turnTable inner fuel table turnNumber (node start n turnNumber i) =
        some ((legsFrom next between (m + 1) turnNumber i).flatMap (Leg.points start n table₀), table',
          Bool.not^[m + 1] turnNumber) ∧
      Processed start n K table₀ table' (P ∪ arrival next turnNumber i '' Set.Iic m) := by
  induction m generalizing fuel turnNumber i table P with
  | zero =>
    obtain ⟨fuel, rfl⟩ : ∃ k, fuel = k + 1 := ⟨fuel - 1, by omega⟩
    have hseen : P ∪ arrival next turnNumber i '' Set.Iic 0 = insert i P := by
      rw [show Set.Iic 0 = {0} from Set.Iic_bot, Set.image_singleton, Set.union_singleton]
      rfl
    rw [hseen] at hstop ⊢
    obtain ⟨table', hprocessed, hstep⟩ := component_succ hways fuel (hinner turnNumber) hi h
    have hnext : next turnNumber i < K := (hways.paired turnNumber).mem i hi
    refine ⟨table', ?_, hprocessed⟩
    rw [hstep, if_pos ((hprocessed.flag _ _ hnext).2 hstop)]
    simp [legsFrom]
  | succ m ih =>
    obtain ⟨fuel, rfl⟩ : ∃ k, fuel = k + 1 := ⟨fuel - 1, by omega⟩
    -- what is processed behind the first leg
    have hseen : ∀ j, P ∪ arrival next turnNumber i '' Set.Iic (j + 1) =
        insert i P ∪ arrival next (!turnNumber) (next turnNumber i) '' Set.Iic j := fun j => by
      rw [arrival, image_turn_succ, arrival, Bool.not_not, Set.union_insert, Set.insert_union]
    obtain ⟨table', hprocessed, hstep⟩ := component_succ hways fuel (hinner turnNumber) hi h
    have hnext : next turnNumber i < K := (hways.paired turnNumber).mem i hi
    have hnew : next turnNumber i ∉ insert i P := by
      have hfirst := hfree 0 (Nat.succ_pos m)
      rwa [show Set.Iic 0 = {0} from Set.Iic_bot, Set.image_singleton, Set.union_singleton] at hfirst
    obtain ⟨table'', hrun, hall⟩ := ih (show m < fuel by omega) hnext hprocessed (fun j hj => by
      rw [← hseen, ← arrival_succ]
      exact hfree (j + 1) (Nat.succ_lt_succ hj)) (by rwa [← hseen, ← arrival_succ])
    refine ⟨table'', ?_, by rwa [hseen]⟩
    rw [hstep, if_neg fun hflag => hnew ((hprocessed.flag _ _ hnext).1 hflag), hrun, Option.bind_some, legsFrom]
    rfl

/-! ## The loop over the intersections -/

/-- the first intersections of legs -/
def firsts (loops : List (List Leg)) : List ℕ := loops.flatten.map Leg.first

/-- components that have been traced: loops of ways, with no intersection twice, that leave no partner of an
intersection behind -/
structure TracedUpTo (next : Bool → ℕ → ℕ) (between : Bool → ℕ → List ℕ) (start n : Bool → ℕ) (K : ℕ) (table₀ : Table)
    (loops : List (List Leg)) (table : Table) (m : ℕ) : Prop where
  loop : ∀ legs ∈ loops, Loop legs
  leg : ∀ leg ∈ loops.flatten, leg = legFrom next between leg.turnNumber leg.first
  nodup : (firsts loops).Nodup
  lt : ∀ i ∈ firsts loops, i < K
  closed : ∀ turnNumber, ∀ i ∈ firsts loops, next turnNumber i ∈ firsts loops
  upTo : ∀ i < m, i ∈ firsts loops
  processed : Processed start n K table₀ table {i | i ∈ firsts loops}

/-- the component of an intersection that was not processed -/
theorem component_traced (hways : Ways turnTable start n K table₀ next between) {inner outer m : ℕ}
    (hinner : ∀ turnNumber, n turnNumber + K < inner) (houter : K ≤ outer) (hm : m < K) {loops : List (List Leg)}
    (h : TracedUpTo next between start n K table₀ loops table m) (hnew : m ∉ firsts loops) :
    ∃ legs table', component turnTable inner outer table false (node start n false m) =
        some (legs.flatMap (Leg.points start n table₀), table', false) ∧
      TracedUpTo next between start n K table₀ (loops ++ [legs]) table' (m + 1) := by
  -- the partners of what is left are left
  have hleft : ∀ turnNumber, Paired {i | i < K ∧ i ∉ firsts loops} (next turnNumber) := fun turnNumber => by
    have hpaired := hways.paired turnNumber
    refine ⟨fun i hi => ⟨hpaired.mem i hi.1, fun hmem => hi.2 ?_⟩, fun i hi => hpaired.back i hi.1,
      fun i hi => hpaired.ne i hi.1⟩
    rw [← hpaired.back i hi.1]
    exact h.closed turnNumber _ hmem
  have hfinite : {i | i < K ∧ i ∉ firsts loops}.Finite := (Set.finite_Iio K).subset fun i hi => hi.1
  have hcard : {i | i < K ∧ i ∉ firsts loops}.ncard ≤ K := by
    have hiio : (Set.Iio K).ncard = K := by rw [Set.ncard_eq_toFinset_card', Set.toFinset_Iio, Nat.card_Iio]
    calc {i | i < K ∧ i ∉ firsts loops}.ncard
      _ ≤ (Set.Iio K).ncard := Set.ncard_le_ncard (fun i hi => hi.1) (Set.finite_Iio K)
      _ = K := hiio
  have hmem := @turn_mem _ _ _ _ m (hleft false) (hleft true) ⟨hm, hnew⟩
  obtain ⟨k, hpos, hk, heven, hreturn, hdistinct⟩ := exists_return (hleft false) (hleft true) ⟨hm, hnew⟩ hfinite
  obtain ⟨k, rfl⟩ : ∃ k', k = k' + 1 := ⟨k - 1, by omega⟩
  have hside : Bool.not^[k + 1] false = false := by
    rw [Bool.involutive_not.iterate_even heven]
    rfl
  obtain ⟨table', hrun, hprocessed⟩ := component_run hways hinner (show k < outer by omega) hm h.processed
    (fun j hj hseen => by
      rcases hseen with hseen | ⟨j', hj', heq⟩
      · exact (hmem (j + 1)).2 hseen
      · have hne := hdistinct j' (by rw [Set.mem_Iic] at hj'; omega) (j + 1) (by omega) heq
        rw [Set.mem_Iic] at hj'
        omega) (.inr ⟨0, Nat.zero_le k, hreturn.symm⟩)
  rw [hside] at hrun
  have hfirsts : firsts (loops ++ [legsFrom next between (k + 1) false m]) =
      firsts loops ++ (List.range (k + 1)).map (arrival next false m) := by
    rw [firsts, List.flatten_append, List.map_append, List.flatten_singleton, first_legsFrom]
    rfl
  have harrival : ∀ i, i ∈ (List.range (k + 1)).map (arrival next false m) ↔ i ∈ arrival next false m '' Set.Iic k :=
    fun i => by
    simp only [List.mem_map, List.mem_range, Nat.lt_succ_iff, Set.mem_image, Set.mem_Iic]
  refine ⟨_, table', hrun, ⟨fun legs hlegs => ?_, fun leg hlegs => ?_, ?_, fun i hi => ?_, fun turnNumber i hi => ?_,
    fun i hi => ?_, ?_⟩⟩
  · rcases List.mem_append.1 hlegs with hlegs | hlegs
    · exact h.loop legs hlegs
    · rw [List.mem_singleton.1 hlegs]
      exact loop_legsFrom heven hreturn
  · rw [List.flatten_append, List.flatten_singleton, List.mem_append] at hlegs
    exact hlegs.elim (h.leg leg) legFrom_of_mem
  · rw [hfirsts, List.nodup_append]
    refine ⟨h.nodup, List.nodup_range.map_on fun a ha b hb => hdistinct a (List.mem_range.1 ha) b (List.mem_range.1 hb),
      fun a ha b hb heq => ?_⟩
    obtain ⟨j, -, rfl⟩ := List.mem_map.1 hb
    rw [heq] at ha
    exact (hmem j).2 ha
  · rw [hfirsts, List.mem_append] at hi
    rcases hi with hi | hi
    · exact h.lt i hi
    · obtain ⟨j, -, rfl⟩ := List.mem_map.1 hi
      exact (hmem j).1
  · rw [hfirsts, List.mem_append] at hi ⊢
    rcases hi with hi | hi
    · exact .inl (h.closed turnNumber i hi)
    · obtain ⟨j, hj, rfl⟩ := List.mem_map.1 hi
      rw [List.mem_range] at hj
      obtain ⟨hfirst, hsecond⟩ := visited_closed (hleft false) (hleft true) ⟨hm, hnew⟩ heven hpos hreturn hj
      refine .inr (List.mem_map.2 ?_)
      cases turnNumber with
      | false =>
        obtain ⟨j', hj', heq⟩ := hfirst
        exact ⟨j', List.mem_range.2 hj', heq.symm⟩
      | true =>
        obtain ⟨j', hj', heq⟩ := hsecond
        exact ⟨j', List.mem_range.2 hj', heq.symm⟩
  · rw [hfirsts, List.mem_append]
    rcases Nat.lt_succ_iff_lt_or_eq.1 hi with hlt | rfl
    · exact .inl (h.upTo i hlt)
    · exact .inr (List.mem_map.2 ⟨0, List.mem_range.2 (Nat.succ_pos k), rfl⟩)
  · have hset : {i | i ∈ firsts (loops ++ [legsFrom next between (k + 1) false m])} =
        {i | i ∈ firsts loops} ∪ arrival next false m '' Set.Iic k := by
      ext i
      change i ∈ firsts _ ↔ _
      rw [hfirsts, List.mem_append, harrival]
      rfl
    rwa [hset]

/-- the loop over the first intersections -/
theorem traceLoop_upTo (hways : Ways turnTable start n K table₀ next between) {inner outer : ℕ}
    (hinner : ∀ turnNumber, n turnNumber + K < inner) (houter : K ≤ outer)
    (h₀ : ∀ turnNumber, ∀ i < K, (table₀ turnNumber (node start n turnNumber i)).wasProcessed = false) {m : ℕ}
      (hm : m ≤ K) :
    ∃ loops table, traceLoop turnTable inner outer (start false + n false) (start false + n false + m) table₀ =
        some (loops.map fun legs => legs.flatMap (Leg.points start n table₀), table, false) ∧
      TracedUpTo next between start n K table₀ loops table m := by
  induction m with
  | zero =>
    refine ⟨[], table₀, by rw [traceLoop, Nat.add_zero, Nat.sub_self]; rfl, ?_⟩
    refine ⟨fun _ h => absurd h List.not_mem_nil, fun _ h => absurd h List.not_mem_nil, List.nodup_nil,
      fun _ h => absurd h List.not_mem_nil, fun _ _ h => absurd h List.not_mem_nil,
        fun _ h => absurd h (Nat.not_lt_zero _), ?_⟩
    refine ⟨fun turnNumber i hi => ?_, fun _ _ => rfl, fun _ _ _ => rfl⟩
    rw [h₀ turnNumber i hi]
    exact iff_of_false Bool.false_ne_true List.not_mem_nil
  | succ m ih =>
    obtain ⟨loops, table, hrun, h⟩ := ih (Nat.le_of_succ_le hm)
    have hlt : m < K := hm
    have hnode : start false + n false + m = node start n false m := Nat.add_assoc _ _ _
    have hflag := h.processed.flag false m hlt
    rw [traceLoop, Nat.add_sub_cancel_left] at hrun
    rw [traceLoop, Nat.add_sub_cancel_left, List.range'_concat, List.foldlM_append, hrun, Nat.one_mul, hnode]
    simp only [Option.bind_eq_bind, Option.bind_some, List.foldlM_cons, List.foldlM_nil]
    by_cases hmem : m ∈ firsts loops
    · refine ⟨loops, table, by rw [if_pos (hflag.2 hmem)]; rfl, h.loop, h.leg, h.nodup, h.lt, h.closed, fun i hi => ?_,
        h.processed⟩
      rcases Nat.lt_succ_iff_lt_or_eq.1 hi with hi | rfl
      · exact h.upTo i hi
      · exact hmem
    · obtain ⟨legs, table', hcomponent, h'⟩ := component_traced hways hinner houter hlt h hmem
      refine ⟨loops ++ [legs], table', ?_, h'⟩
      rw [if_neg fun hf => hmem (hflag.1 hf), hcomponent, Option.bind_some, List.map_append]
      rfl

/-- the components of a row: loops of ways along the two lists, with each intersection once -/
structure Traced (turnTable : Bool → Bool) (start n : Bool → ℕ) (K : ℕ) (table : Table) (loops : List (List Leg)) :
    Prop where
  loop : ∀ legs ∈ loops, Loop legs
  way : ∀ leg ∈ loops.flatten, Way (start leg.turnNumber) (n leg.turnNumber) K (table leg.turnNumber)
    (turnTable leg.turnNumber) leg.first leg.last leg.between
  once : (firsts loops).Perm (List.range K)

/-- **The components of a row** have each intersection once; all intersections are processed then. -/
theorem traceLoop_traced (turnTable : Bool → Bool)
    (h : ∀ turnNumber, Outline (start turnNumber) (n turnNumber) K (start (!turnNumber) + n (!turnNumber))
      (table turnNumber)) {inner outer : ℕ} (hinner : ∀ turnNumber, n turnNumber + K < inner) (houter : K ≤ outer) :
    ∃ loops table', traceLoop turnTable inner outer (start false + n false) (start false + n false + K) table =
        some (loops.map fun legs => legs.flatMap (Leg.points start n table), table', false) ∧
      Traced turnTable start n K table loops ∧ Processed start n K table table' {i | i < K} := by
  obtain ⟨next, between, hways⟩ := exists_ways turnTable h
  obtain ⟨loops, table', hrun, htraced⟩ := traceLoop_upTo hways hinner houter
    (fun turnNumber i hi => (h turnNumber).unprocessed i hi) le_rfl
  have hall : ∀ i, i ∈ firsts loops ↔ i < K := fun i => ⟨htraced.lt i, htraced.upTo i⟩
  refine ⟨loops, table', hrun, ⟨htraced.loop, fun leg hleg => ?_, ?_⟩, ?_⟩
  · have hlt := htraced.lt leg.first (List.mem_map_of_mem hleg)
    have hway := hways.way leg.turnNumber leg.first hlt
    have hlegFrom := htraced.leg leg hleg
    rw [show leg.last = next leg.turnNumber leg.first from congrArg Leg.last hlegFrom,
      show leg.between = between leg.turnNumber leg.first from congrArg Leg.between hlegFrom]
    exact hway
  · exact (List.perm_ext_iff_of_nodup htraced.nodup List.nodup_range).2 fun i => by rw [hall, List.mem_range]
  · have hprocessed := htraced.processed
    simp only [hall] at hprocessed
    exact hprocessed

end Row

/-! ## The rows -/

/-- for (point ...) SetWasProcessed(false) -/
def resetProcessed (begIdx endIdx : ℕ) (buffer : Buffer) : Buffer :=
  (List.range' begIdx (endIdx - begIdx)).foldl (fun buffer point => setWasProcessed buffer point false) buffer

theorem resetProcessed_eq (begIdx K : ℕ) (buffer : Buffer) (x : ℕ) :
    resetProcessed begIdx (begIdx + K) buffer x =
      if begIdx ≤ x ∧ x < begIdx + K then unprocessed (buffer x) else buffer x := by
  rw [resetProcessed, Nat.add_sub_cancel_left]
  induction K with
  | zero => rw [if_neg (by omega)]; rfl
  | succ K ih =>
    rw [List.range'_concat, List.foldl_append, List.foldl_cons, List.foldl_nil, Nat.one_mul, setWasProcessed]
    by_cases hx : x = begIdx + K
    · rw [hx, Function.update_self, if_pos (by omega), ← hx, ih, if_neg (by omega)]
      rfl
    · rw [Function.update_of_ne hx, ih]
      have hiff : (begIdx ≤ x ∧ x < begIdx + K) ↔ begIdx ≤ x ∧ x < begIdx + (K + 1) := by omega
      simp only [hiff]

/-- a value for each list -/
def both {α : Type} (a b : α) (turnNumber : Bool) : α := if turnNumber then b else a

/-- one row of clip_polygons, from the linked lists on; a component has no more intersections than the row, and no way
more nodes than there are in front of the ends of the row -/
def traceRow (turnTable : Bool → Bool) (polygonA polygonB : GPUPolygon NativeGeoPoint) (prefixSumA prefixSumB : List ℕ)
    (isAConst isBConst : Bool) (buffers : Buffer × Buffer) (i : ℕ) :
    Option (List (List NativeGeoPoint) × Buffer × Buffer) := do
  let n ← totalPointCountAt polygonA (rowOf isAConst i)
  let k ← totalPointCountAt polygonB (rowOf isBConst i)
  let offsetA ← startAt prefixSumA i
  let endIdxA ← prefixSumA[i]?
  let offsetB ← startAt prefixSumB i
  let endIdxB ← prefixSumB[i]?
  let (components, table, _) ← traceLoop turnTable (endIdxA + endIdxB + 1) (endIdxA - (offsetA + n)) (offsetA + n)
    endIdxA
    (both buffers.1 buffers.2)
  some (components, resetProcessed (offsetA + n) endIdxA (table false),
    resetProcessed (offsetB + k) endIdxB (table true))

namespace Columns

variable (c : Columns)

/-- every sub-polygon of row `i` is crossed an even number of times -/
structure EvenRow (i : ℕ) : Prop where
  a : EvenCrossings Prod.fst (c.crossings i) (c.rowA i)
  b : EvenCrossings Prod.snd (c.crossings i) (c.rowB i)

/-- where the lists of row `i` begin -/
def starts (i : ℕ) : Bool → ℕ := both (startOf c.sizeA i) (startOf c.sizeB i)

/-- how many vertices they have -/
def pointCounts (i : ℕ) : Bool → ℕ := both (c.rowA i).flatten.length (c.rowB i).flatten.length

variable {c}

theorem mem_crossings {i : ℕ} {e : Edge × Edge} (he : e ∈ c.crossings i) :
    e.1 ∈ (rowEdges (c.rowA i)).flatten ∧ e.2 ∈ (rowEdges (c.rowB i)).flatten :=
      mem_edgePairs (List.mem_of_mem_filter he)

theorem RowLabelled.outlines {a b : Buffer} {i : ℕ} (h : c.RowLabelled a b i) (hpoints : c.HavePoints)
    (hi : i < c.count)
    (heven : c.EvenRow i) (turnNumber : Bool) : Outline (c.starts i turnNumber) (c.pointCounts i turnNumber)
      (c.crossings i).length (c.starts i (!turnNumber) + c.pointCounts i (!turnNumber)) (both a b turnNumber) := by
  cases turnNumber with
  | false =>
    obtain ⟨chain, hlist⟩ := h.a
    exact hlist.outline (hpoints.a i hi) (fun e he => (mem_crossings he).1) heven.a
  | true =>
    obtain ⟨chain, hlist⟩ := h.b
    exact hlist.outline (hpoints.b i hi) (fun e he => (mem_crossings he).2) heven.b

/-- one row, which leaves the lists as they were -/
theorem traceRow_traced (turnTable : Bool → Bool) {a b : Buffer} {i : ℕ} (h : c.RowLabelled a b i)
    (hpoints : c.HavePoints)
    (hi : i < c.count) (heven : c.EvenRow i) :
    ∃ loops, traceRow turnTable (ofRows c.rowsA) (ofRows c.rowsB) (inclusiveSum ((List.range c.count).map c.sizeA))
        (inclusiveSum ((List.range c.count).map c.sizeB)) c.isAConst c.isBConst (a, b) i =
          some (loops.map fun legs => legs.flatMap (Leg.points (c.starts i) (c.pointCounts i) (both a b)), a, b) ∧
      Traced turnTable (c.starts i) (c.pointCounts i) (c.crossings i).length (both a b) loops := by
  have houtlines := h.outlines hpoints hi heven
  have hsizeA : c.sizeA i = (c.rowA i).flatten.length + (c.crossings i).length := rfl
  have hsizeB : c.sizeB i = (c.rowB i).flatten.length + (c.crossings i).length := rfl
  have hinner : ∀ turnNumber, c.pointCounts i turnNumber + (c.crossings i).length <
      startOf c.sizeA i + c.sizeA i + (startOf c.sizeB i + c.sizeB i) + 1 := fun turnNumber => by
    cases turnNumber
    · change (c.rowA i).flatten.length + _ < _
      omega
    · change (c.rowB i).flatten.length + _ < _
      omega
  obtain ⟨loops, table', hrun, htraced, hprocessed⟩ := traceLoop_traced turnTable houtlines hinner
    (show (c.crossings i).length ≤ startOf c.sizeA i + c.sizeA i - (startOf c.sizeA i + (c.rowA i).flatten.length) by
      omega)
  -- the flags of the intersections were not set before
  have hreset : ∀ turnNumber, resetProcessed (c.starts i turnNumber + c.pointCounts i turnNumber)
      (c.starts i turnNumber + c.pointCounts i turnNumber + (c.crossings i).length) (table' turnNumber) =
        both a b turnNumber := by
    intro turnNumber
    funext x
    rw [resetProcessed_eq]
    split_ifs with hx
    · obtain ⟨k, hk⟩ := Nat.exists_eq_add_of_le hx.1
      have hflag := (houtlines turnNumber).unprocessed k (by omega)
      rw [← Nat.add_assoc, ← hk] at hflag
      rw [hprocessed.same, unprocessed, ← hflag]
    · refine hprocessed.outside turnNumber x fun k hk heq => hx ?_
      rw [heq, node]
      omega
  refine ⟨loops, ?_, htraced⟩
  rw [traceRow, totalPointCountAt_ofRows (c.existsA i hi), totalPointCountAt_ofRows (c.existsB i hi), rowA_eq, rowB_eq,
    startAt_sizes _ hi.le, startAt_sizes _ hi.le, endAt_sizes _ hi, endAt_sizes _ hi]
  simp only [Option.bind_eq_bind, Option.bind_some]
  have hendA : startOf c.sizeA i + c.sizeA i = c.starts i false + c.pointCounts i false + (c.crossings i).length := by
    rw [hsizeA, ← Nat.add_assoc]
    rfl
  have hendB : startOf c.sizeB i + c.sizeB i = c.starts i true + c.pointCounts i true + (c.crossings i).length := by
    rw [hsizeB, ← Nat.add_assoc]
    rfl
  have hresetA := hreset false
  have hresetB := hreset true
  rw [← hendA] at hrun hresetA
  rw [← hendB] at hresetB
  have hloop : traceLoop turnTable (startOf c.sizeA i + c.sizeA i + (startOf c.sizeB i + c.sizeB i) + 1)
      (startOf c.sizeA i + c.sizeA i - (startOf c.sizeA i + (c.rowA i).flatten.length))
      (startOf c.sizeA i + (c.rowA i).flatten.length) (startOf c.sizeA i + c.sizeA i) (both a b) = _ := hrun
  rw [hloop, Option.bind_some, Option.some.injEq]
  exact congrArg₂ Prod.mk rfl (congrArg₂ Prod.mk hresetA hresetB)

end Columns

-- the square in which the two squares overlap
example : ((labelLists (ofRows squares.rowsA) (ofRows squares.rowsB) (fun _ => true) (fun _ => true) true true 1
      (fun _ => [0]) ⟨fun _ => default, fun _ => default⟩).bind fun r =>
    (traceRow polyIntersect (ofRows squares.rowsA) (ofRows squares.rowsB) r.1 r.2.1 true true r.2.2 0).map Prod.fst) =
      some [[⟨2, 1⟩, ⟨2, 2⟩, ⟨1, 2⟩, ⟨1, 1⟩]] := by decide +kernel

end QikkDB.PolygonClipping

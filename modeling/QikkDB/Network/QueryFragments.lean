/-
How the result of a query gets to the client (TCPClientHandler.cpp, `GetNextQueryResult`, `HandleQuery`;
ColumnarDBClient.cs, `ValIfNotNulled`, `ConvertToDictionaries`).

A result of FRAGMENT_SIZE rows or more is cut into fragments, one for each call of GetNextQueryResult, with the words of
the null masks that belong to them; a shorter result is handed over as it is. The last call answers OK.

- a payload is one of eight kinds, each with elements of its own type;
- the entries of the maps `payloads` and `nullBitMasks` with one key are one column;
- `none` where an element behind the end of a payload or mask is read, or an int overflows.

Results:
- `fetch_fragments`: without masks the fragments are consecutive windows of the rows.
- `result_delivered`: when the client gets the whole result.
-/
import Mathlib.Tactic
import QikkDB.Core.NullValues
import QikkDB.Lib.Traverse

namespace QikkDB.QueryFragments

open NullValues Traverse

/-! ## Messages -/

/-- QueryResponsePayload::PayloadCase -/
inductive PayloadCase where
  | int
  | float
  | int64
  | dateTime
  | double
  | point
  | polygon
  | string
  | notSet
deriving DecidableEq, Repr

/-- a QueryResponsePayload -/
structure Payload (Elem : PayloadCase → Type) where
  payloadCase : PayloadCase
  data : List (Elem payloadCase)

structure Column (Elem : PayloadCase → Type) where
  payload : Payload Elem
  nullMask : Option Mask

/-- a QueryResponseMessage -/
structure Response (Elem : PayloadCase → Type) where
  /-- in the order of the map `payloads` -/
  columns : List (String × Column Elem)
  columnOrder : List String
  /-- floats by their bits -/
  timing : List (String × BitVec 32)

/-- the codes of an InfoMessage that answers a query -/
inductive StatusCode where
  | ok
  | queryError
deriving DecidableEq, Repr

inductive Message (Elem : PayloadCase → Type) where
  | response (r : Response Elem)
  | info (code : StatusCode) (message : String)

/-! ## GetNextQueryResult -/

def FRAGMENT_SIZE : ℕ := 1024

variable {Elem : PayloadCase → Type}

structure Handler (Elem : PayloadCase → Type) where
  sentRecords : ℕ
  lastResultLen : ℕ
  /-- the future, while it is valid, with what the query returns -/
  lastQueryResult : Option (Option (Message Elem))
  lastResultMessage : Option (Message Elem)

/-- HandleQuery, for a query that returns `result` -/
def Handler.handleQuery (h : Handler Elem) (result : Option (Message Elem)) : Handler Elem :=
  { h with sentRecords := 0, lastResultLen := 0, lastQueryResult := some result }

/-- the size in the first switch; for a point column it is that of the double payload, which it does not have -/
def Payload.countedSize (p : Payload Elem) : ℕ :=
  match p.payloadCase with
  | .point => 0
  | .notSet => 0
  | _ => p.data.length

def resultLen (r : Response Elem) : ℕ := r.columns.foldl (fun len c => max c.2.payload.countedSize len) 0

/-- the second switch: `size` elements from `start` on -/
def Payload.window (p : Payload Elem) (start size : ℕ) : Option (Payload Elem) :=
  if p.payloadCase = .notSet then some { p with data := [] }
  else do
    let data ← (List.range' start size).mapM fun i => p.data[i]?
    some { p with data := data }

/-- the words of a mask for a fragment; the loop over the copied words runs to the count of words inclusive -/
def maskWindow (mask : Mask) (sentRecords bufferSize : ℕ) : Option Mask :=
  let start := getNullBitMaskSize sentRecords
  let nullMaskBufferSize := getNullBitMaskSize bufferSize
  if start + nullMaskBufferSize ≤ mask.length then
    let nullMaskBuffer := (mask.drop start).take nullMaskBufferSize
    (List.range (nullMaskBufferSize + 1)).mapM fun i => nullMaskBuffer[i]?
  else none

def Column.fragment (c : Column Elem) (sentRecords bufferSize : ℕ) : Option (Column Elem) := do
  let payload ← c.payload.window sentRecords bufferSize
  match c.nullMask with
  | none => some ⟨payload, none⟩
  | some mask => do
    let nullMask ← maskWindow mask sentRecords bufferSize
    some ⟨payload, some nullMask⟩

/-- the rows of the next fragment -/
def bufferSize (lastResultLen sentRecords : ℕ) : ℕ :=
  if FRAGMENT_SIZE > lastResultLen - sentRecords then lastResultLen - sentRecords else FRAGMENT_SIZE

/-- GetNextQueryResult from smallPayload on -/
def Handler.nextFragment (h : Handler Elem) (r : Response Elem) : Option (Message Elem × Handler Elem) := do
  let columns ← r.columns.mapM fun c => do
    let column ← c.2.fragment h.sentRecords (bufferSize h.lastResultLen h.sentRecords)
    some (c.1, column)
  let smallPayload := ⟨columns, r.columnOrder, if h.sentRecords = 0 then r.timing else []⟩
  let sentRecords := h.sentRecords + FRAGMENT_SIZE
  if 2 ^ 31 ≤ sentRecords then none
  else if h.lastResultLen ≤ sentRecords then
    some (.response smallPayload, { h with sentRecords := 0, lastResultLen := 0, lastResultMessage := none })
  else some (.response smallPayload, { h with sentRecords := sentRecords })

def Handler.getNextQueryResult (h : Handler Elem) : Option (Message Elem × Handler Elem) :=
  let h : Handler Elem :=
    match h.lastQueryResult with
    | some result => { h with lastQueryResult := none, lastResultMessage := result }
    | none => h
  match h.lastResultMessage with
  | none => some (.info .ok "", h)
  | some (.info code message) => some (.info code message, { h with lastResultMessage := none })
  | some (.response r) =>
    if h.lastResultLen = 0 then
      if resultLen r < FRAGMENT_SIZE then some (.response r, { h with lastResultMessage := none })
      else { h with lastResultLen := resultLen r }.nextFragment r
    else h.nextFragment r

/-! ## The client -/

/-- ValIfNotNulled, `none` for an index that the mask does not have -/
def valIfNotNulled {α : Type} (val : α) (idx : ℕ) (nullMask : Mask) : Option (Option α) := do
  let word ← nullMask[idx / 64]?
  some (if (word >>> (idx % 64)) &&& 1 = 0 then some val else none)

def Column.values (c : Column Elem) : List (Σ k, Elem k) := c.payload.data.map (Sigma.mk c.payload.payloadCase)

/-- a column of ConvertToDictionaries -/
def Column.shown (c : Column Elem) : Option (List (Option (Σ k, Elem k))) :=
  match c.nullMask with
  | none => some (c.values.map some)
  | some nullMask => c.values.zipIdx.mapM fun v => valIfNotNulled v.1 v.2 nullMask

/-- calls of GetNextQueryResult until it answers OK -/
def fetch : ℕ → Handler Elem → Option (List (Response Elem))
  | 0, _ => none
  | fuel + 1, h => do
    let (message, h) ← h.getNextQueryResult
    match message with
    | .response r => (fetch fuel h).map fun rs => r :: rs
    | .info .ok _ => some []
    | .info .queryError _ => none

/-! ## What is to be delivered -/

/-- all columns have `n` rows and masks for them; the size of a payload is an int -/
structure HasRows (n : ℕ) (r : Response Elem) : Prop where
  rows : ∀ c ∈ r.columns, c.2.payload.data.length = n
  masks : ∀ c ∈ r.columns, ∀ mask ∈ c.2.nullMask, mask.length = getNullBitMaskSize n
  notSet : ∀ c ∈ r.columns, c.2.payload.payloadCase = .notSet → n = 0
  fits : n < 2 ^ 31

/-- the rows of a column, `none` for NULL -/
def Column.rows (c : Column Elem) : List (Option (Σ k, Elem k)) :=
  match c.nullMask with
  | none => c.values.map some
  | some mask => c.values.zipIdx.map fun v => if getBit mask v.2 then none else some v.1

/-- The calls after a query that finds the handler in some state end with OK, and the fragments of each column are its
values and, with the masks of the fragments, its NULLs. -/
def Delivers (h : Handler Elem) (r : Response Elem) : Prop :=
  ∃ (fuel : ℕ) (fragments : List (Response Elem)), fetch fuel (h.handleQuery (some (.response r))) = some fragments ∧
    ∀ name c, r.columns.lookup name = some c →
      ∃ parts : List (Column Elem), fragments.map (fun f => f.columns.lookup name) = parts.map some ∧
        parts.flatMap Column.values = c.values ∧
        ∃ shown, parts.mapM Column.shown = some shown ∧ shown.flatten = c.rows

/-! ## Masks -/

/-- the copy of the words always reads one too many -/
theorem maskWindow_eq_none (mask : Mask) (sentRecords bufferSize : ℕ) : maskWindow mask sentRecords bufferSize = none := by
  unfold maskWindow
  simp only
  split_ifs
  · refine mapM_none (List.mem_range.2 (Nat.lt_succ_self _)) (List.getElem?_eq_none ?_)
    exact List.length_take_le _ _
  · rfl

/-! ## Fragments -/

variable {n : ℕ} {r : Response Elem} {h : Handler Elem}

theorem foldl_max_le {α : Type} {f : α → ℕ} {l : List α} {init m : ℕ} :
    l.foldl (fun len a => max (f a) len) init ≤ m ↔ init ≤ m ∧ ∀ a ∈ l, f a ≤ m := by
  induction l generalizing init with
  | nil => simp
  | cons a l ih =>
    rw [List.foldl_cons, ih, List.forall_mem_cons, max_le_iff]
    tauto

theorem resultLen_le {m : ℕ} : resultLen r ≤ m ↔ ∀ c ∈ r.columns, c.2.payload.countedSize ≤ m := by
  rw [resultLen, foldl_max_le]
  simp

/-- a column of points counts for nothing -/
theorem resultLen_points (hpoints : ∀ c ∈ r.columns, c.2.payload.payloadCase = .point) : resultLen r = 0 := by
  refine Nat.le_zero.1 (resultLen_le.2 fun c hc => ?_)
  simp [Payload.countedSize, hpoints c hc]

theorem resultLen_rows (hrows : HasRows n r) {c : String × Column Elem} (hc : c ∈ r.columns)
    (hcase : c.2.payload.payloadCase ≠ .point) : resultLen r = n := by
  apply le_antisymm
  · refine resultLen_le.2 fun c' hc' => ?_
    unfold Payload.countedSize
    split
    · exact Nat.zero_le _
    · exact Nat.zero_le _
    · exact (hrows.rows c' hc').le
  · have hle := resultLen_le.1 (le_refl (resultLen r)) c hc
    unfold Payload.countedSize at hle
    split at hle
    · exact absurd ‹_› hcase
    · exact (hrows.notSet c hc ‹_›).trans_le (Nat.zero_le _)
    · exact (hrows.rows c hc).symm.trans_le hle

/-- the fragment of a column without a mask -/
def Column.part (c : Column Elem) (start size : ℕ) : Column Elem :=
  ⟨{ c.payload with data := (c.payload.data.drop start).take size }, none⟩

/-- a fragment of a result without masks -/
def Response.part (r : Response Elem) (start size : ℕ) : Response Elem :=
  ⟨r.columns.map fun c => (c.1, c.2.part start size), r.columnOrder, if start = 0 then r.timing else []⟩

theorem fragment_eq {c : Column Elem} {start size : ℕ} (hlen : start + size ≤ c.payload.data.length)
    (hset : c.payload.payloadCase = .notSet → c.payload.data = []) (hmask : c.nullMask = none) :
    c.fragment start size = some (c.part start size) := by
  unfold Column.fragment Payload.window Column.part
  rw [hmask]
  split_ifs with hcase
  · simp [hset hcase]
  · simp [mapM_getElem hlen]

/-- the handler after some fragments -/
def midway (r : Response Elem) (n sentRecords : ℕ) : Handler Elem := ⟨sentRecords, n, none, some (.response r)⟩

/-- the handler after the last fragment -/
def finished : Handler Elem := ⟨0, 0, none, none⟩

/-- a query leaves nothing of what the handler held before -/
theorem fetch_handleQuery (h : Handler Elem) (hlen : FRAGMENT_SIZE ≤ resultLen r) (fuel : ℕ) :
    fetch fuel (h.handleQuery (some (.response r))) = fetch fuel (midway r (resultLen r) 0) := by
  have hpos : resultLen r ≠ 0 := by
    unfold FRAGMENT_SIZE at hlen
    omega
  have hnext : (h.handleQuery (some (.response r))).getNextQueryResult =
      (midway r (resultLen r) 0).getNextQueryResult := by
    simp [Handler.getNextQueryResult, Handler.handleQuery, midway, hpos, Nat.not_lt.2 hlen]
  cases fuel with
  | zero => rfl
  | succ fuel => simp only [fetch, hnext]

theorem fetch_whole (h : Handler Elem) (hlen : resultLen r < FRAGMENT_SIZE) :
    fetch 2 (h.handleQuery (some (.response r))) = some [r] := by
  simp [fetch, Handler.getNextQueryResult, Handler.handleQuery, hlen]

theorem getNext_midway (hn : n ≠ 0) (sent : ℕ) :
    (midway r n sent).getNextQueryResult = (midway r n sent).nextFragment r := by
  simp [Handler.getNextQueryResult, midway, hn]

theorem fetch_masked (hn : n ≠ 0) {c : String × Column Elem} (hc : c ∈ r.columns) {mask : Mask}
    (hmask : c.2.nullMask = some mask) (sent fuel : ℕ) : fetch fuel (midway r n sent) = none := by
  cases fuel with
  | zero => rfl
  | succ fuel =>
    have hcolumns : ∀ size, (r.columns.mapM fun c => do
        let column ← c.2.fragment sent size
        some (c.1, column)) = none := by
      intro size
      refine mapM_none hc ?_
      unfold Column.fragment
      rw [hmask]
      simp only [maskWindow_eq_none]
      cases c.2.payload.window sent size <;> rfl
    simp only [fetch, getNext_midway hn, Handler.nextFragment]
    rw [show (midway r n sent).sentRecords = sent from rfl, hcolumns]
    rfl

/-- one fragment of a result without masks -/
theorem nextFragment_eq (hrows : HasRows n r) (hmask : ∀ c ∈ r.columns, c.2.nullMask = none) {sent : ℕ} (hsent : sent < n)
    (hfits : sent + FRAGMENT_SIZE < 2 ^ 31) :
    (midway r n sent).nextFragment r = some (.response (r.part sent (bufferSize n sent)),
      if n ≤ sent + FRAGMENT_SIZE then finished else midway r n (sent + FRAGMENT_SIZE)) := by
  have hsize : sent + bufferSize n sent ≤ n := by
    unfold bufferSize
    split_ifs <;> omega
  have hcolumns : (r.columns.mapM fun c => do
      let column ← c.2.fragment sent (bufferSize n sent)
      some (c.1, column)) = some (r.columns.map fun c => (c.1, c.2.part sent (bufferSize n sent))) := by
    refine mapM_some fun c hc => ?_
    have hlen := hrows.rows c hc
    rw [fragment_eq (by omega) ?_ (hmask c hc)]
    · rfl
    · intro hcase
      have := hrows.notSet c hc hcase
      omega
  unfold Handler.nextFragment
  rw [show (midway r n sent).sentRecords = sent from rfl, show (midway r n sent).lastResultLen = n from rfl, hcolumns]
  simp only [Option.bind_eq_bind, Option.bind_some, if_neg (Nat.not_le.2 hfits)]
  by_cases hlast : n ≤ sent + FRAGMENT_SIZE
  · rw [if_pos hlast, if_pos hlast]
    rfl
  · rw [if_neg hlast, if_neg hlast]
    rfl

theorem lookup_map_snd {β γ : Type} (f : β → γ) (l : List (String × β)) (name : String) :
    (l.map fun c => (c.1, f c.2)).lookup name = (l.lookup name).map f := by
  induction l with
  | nil => rfl
  | cons c l ih =>
    obtain ⟨key, b⟩ := c
    simp only [List.map_cons, List.lookup_cons]
    cases name == key
    · exact ih
    · rfl

theorem mem_of_lookup {β : Type} {l : List (String × β)} {name : String} {b : β} (h : l.lookup name = some b) :
    ∃ c ∈ l, c.2 = b := by
  induction l with
  | nil => cases h
  | cons c l ih =>
    obtain ⟨key, b'⟩ := c
    rw [List.lookup_cons] at h
    cases hname : name == key with
    | true =>
      rw [hname] at h
      exact ⟨_, List.mem_cons_self, Option.some.inj h⟩
    | false =>
      rw [hname] at h
      obtain ⟨c', hc', heq⟩ := ih h
      exact ⟨c', List.mem_cons_of_mem _ hc', heq⟩

theorem lookup_part (r : Response Elem) (start size : ℕ) (name : String) :
    (r.part start size).columns.lookup name = (r.columns.lookup name).map fun c => c.part start size :=
  lookup_map_snd (fun c : Column Elem => c.part start size) r.columns name

theorem values_part (c : Column Elem) (start size : ℕ) : (c.part start size).values = (c.values.drop start).take size := by
  simp [Column.values, Column.part, List.map_take, List.map_drop]

/-- The fragments of a result without masks: consecutive windows of every column, from the rows sent on. -/
theorem fetch_fragments (hrows : HasRows n r) (hmask : ∀ c ∈ r.columns, c.2.nullMask = none)
    (hfits : n ≤ 2 ^ 31 - FRAGMENT_SIZE) (k : ℕ) (hk : FRAGMENT_SIZE * k < n) :
    ∃ (fuel : ℕ) (fragments : List (Response Elem)), fetch fuel (midway r n (FRAGMENT_SIZE * k)) = some fragments ∧
      ∀ name c, r.columns.lookup name = some c →
        ∃ parts : List (Column Elem), fragments.map (fun f => f.columns.lookup name) = parts.map some ∧
          (∀ part ∈ parts, part.nullMask = none) ∧
          parts.flatMap Column.values = c.values.drop (FRAGMENT_SIZE * k) := by
  -- the rows that are still to be sent get fewer with each fragment
  induction hrest : n - FRAGMENT_SIZE * k using Nat.strong_induction_on generalizing k with
  | _ rest ih =>
    have hpos : 0 < FRAGMENT_SIZE := by decide
    have hnext : FRAGMENT_SIZE * k + FRAGMENT_SIZE = FRAGMENT_SIZE * (k + 1) := by ring
    have hint : FRAGMENT_SIZE * k + FRAGMENT_SIZE < 2 ^ 31 := by
      unfold FRAGMENT_SIZE at *
      omega
    have hfragment := nextFragment_eq hrows hmask hk hint
    set size := bufferSize n (FRAGMENT_SIZE * k) with hsize
    by_cases hlast : n ≤ FRAGMENT_SIZE * k + FRAGMENT_SIZE
    · rw [if_pos hlast] at hfragment
      refine ⟨2, [r.part (FRAGMENT_SIZE * k) size], ?_, ?_⟩
      · simp only [fetch, getNext_midway (by omega : n ≠ 0), hfragment, Option.bind_eq_bind, Option.bind_some]
        rfl
      · intro name c hc
        obtain ⟨c', hc', rfl⟩ := mem_of_lookup hc
        refine ⟨[c'.2.part (FRAGMENT_SIZE * k) size], ?_, by simp [Column.part], ?_⟩
        · simp [lookup_part, hc]
        · have hlen : c'.2.values.length = n := by simp [Column.values, hrows.rows c' hc']
          rw [List.flatMap_singleton, values_part, List.take_of_length_le]
          rw [List.length_drop, hlen, hsize, bufferSize]
          split_ifs <;> omega
    · rw [if_neg hlast, hnext] at hfragment
      obtain ⟨fuel, fragments, hfetch, hparts⟩ := ih _ (by omega) (k + 1) (by omega) rfl
      refine ⟨fuel + 1, r.part (FRAGMENT_SIZE * k) size :: fragments, ?_, ?_⟩
      · simp only [fetch, getNext_midway (by omega : n ≠ 0), hfragment, Option.bind_eq_bind, Option.bind_some, hfetch]
        rfl
      · intro name c hc
        obtain ⟨parts, hlookup, hnone, hvalues⟩ := hparts name c hc
        refine ⟨c.part (FRAGMENT_SIZE * k) size :: parts, ?_, ?_, ?_⟩
        · simp [lookup_part, hc, hlookup]
        · intro part hpart
          rcases List.mem_cons.1 hpart with rfl | hpart
          · rfl
          · exact hnone part hpart
        · have hfull : size = FRAGMENT_SIZE := by
            rw [hsize, bufferSize, if_neg (by omega)]
          rw [List.flatMap_cons, hvalues, values_part, hfull, ← hnext, ← List.drop_drop, List.take_append_drop]

/-- a result so long that the count of the rows sent overflows -/
theorem fetch_overflow (hrows : HasRows n r) (hmask : ∀ c ∈ r.columns, c.2.nullMask = none)
    (hlong : 2 ^ 31 - FRAGMENT_SIZE < n) (fuel k : ℕ) (hk : FRAGMENT_SIZE * k < n) :
    fetch fuel (midway r n (FRAGMENT_SIZE * k)) = none := by
  induction fuel generalizing k with
  | zero => rfl
  | succ fuel ih =>
    have hnext : FRAGMENT_SIZE * k + FRAGMENT_SIZE = FRAGMENT_SIZE * (k + 1) := by ring
    have hn : n ≠ 0 := by omega
    by_cases hint : FRAGMENT_SIZE * k + FRAGMENT_SIZE < 2 ^ 31
    · have hfragment := nextFragment_eq hrows hmask hk hint
      have hmore : ¬ n ≤ FRAGMENT_SIZE * k + FRAGMENT_SIZE := by
        unfold FRAGMENT_SIZE at *
        omega
      rw [if_neg hmore, hnext] at hfragment
      simp only [fetch, getNext_midway hn, hfragment, Option.bind_eq_bind, Option.bind_some, ih (k + 1) (by omega)]
      rfl
    · have hnone : (midway r n (FRAGMENT_SIZE * k)).nextFragment r = none :=
        Option.bind_eq_none_iff.2 fun columns _ => if_pos (Nat.not_lt.1 hint)
      simp only [fetch, getNext_midway hn, hnone]
      rfl

/-! ## NULLs -/

theorem valIfNotNulled_eq {α : Type} (val : α) {idx : ℕ} {mask : Mask} (h : idx / 64 < mask.length) :
    valIfNotNulled val idx mask = some (if getBit mask idx then none else some val) := by
  have hword : ∀ word : BitVec 64, ((word >>> (idx % 64)) &&& 1 = 0) ↔ word.getLsbD (idx % 64) = false := by
    intro word
    rw [show (1 : BitVec 64) = 1#64 from rfl, BitVec.and_one_eq_setWidth_ofBool_getLsbD, BitVec.getLsbD_ushiftRight,
      Nat.add_zero]
    cases word.getLsbD (idx % 64) <;> decide
  unfold valIfNotNulled getBit getBitMaskIdx getShiftMaskIdx
  rw [List.getD_eq_getElem?_getD, List.getElem?_eq_getElem h]
  simp only [Option.bind_eq_bind, Option.bind_some, Option.getD_some, hword]
  by_cases hbit : (mask[idx / 64]).getLsbD (idx % 64) = true <;> simp [hbit]

/-- a mask that has a bit for every row shows the NULLs -/
theorem shown_eq (c : Column Elem) (h : ∀ mask ∈ c.nullMask, mask.length = getNullBitMaskSize c.payload.data.length) :
    c.shown = some c.rows := by
  unfold Column.shown Column.rows
  cases hmask : c.nullMask with
  | none => rfl
  | some mask =>
    refine mapM_some fun v hv => ?_
    obtain ⟨-, hlt, -⟩ := List.mem_zipIdx hv
    have hlen := h mask hmask
    have hvalues : c.values.length = c.payload.data.length := List.length_map _
    refine valIfNotNulled_eq v.1 ?_
    unfold getNullBitMaskSize at hlen
    omega

/-! ## The result -/

theorem delivers_whole (h : Handler Elem) (hrows : HasRows n r) (hlen : resultLen r < FRAGMENT_SIZE) : Delivers h r := by
  refine ⟨2, [r], fetch_whole h hlen, ?_⟩
  intro name c hc
  obtain ⟨c', hc', rfl⟩ := mem_of_lookup hc
  refine ⟨[c'.2], by simp [hc], List.flatMap_singleton .., [c'.2.rows], ?_, List.flatten_singleton⟩
  refine mapM_some fun part hpart => ?_
  obtain rfl := List.mem_singleton.1 hpart
  exact shown_eq c'.2 fun mask hmask => by rw [hrows.rows c' hc', hrows.masks c' hc' mask hmask]

theorem delivers_fragments (h : Handler Elem) (hrows : HasRows n r) (hlen : resultLen r = n) (hn : FRAGMENT_SIZE ≤ n)
    (hmask : ∀ c ∈ r.columns, c.2.nullMask = none) (hfits : n ≤ 2 ^ 31 - FRAGMENT_SIZE) : Delivers h r := by
  have hpos : FRAGMENT_SIZE * 0 < n := by
    unfold FRAGMENT_SIZE at *
    omega
  obtain ⟨fuel, fragments, hfetch, hparts⟩ := fetch_fragments hrows hmask hfits 0 hpos
  refine ⟨fuel, fragments, ?_, ?_⟩
  · rw [fetch_handleQuery h (hlen ▸ hn), hlen]
    exact hfetch
  · intro name c hc
    obtain ⟨parts, hlookup, hnone, hvalues⟩ := hparts name c hc
    obtain ⟨c', hc', rfl⟩ := mem_of_lookup hc
    have hall : parts.flatMap Column.values = c'.2.values := by simpa using hvalues
    refine ⟨parts, hlookup, hall, parts.map fun part => part.values.map some, ?_, ?_⟩
    · refine mapM_some fun part hpart => ?_
      rw [Column.shown, hnone part hpart]
    · rw [Column.rows, hmask c' hc', ← List.flatMap_def, ← hall, List.map_flatMap]

/-- **When a result is delivered whole.** Whatever the handler held before the query, the client gets all rows and NULLs
of the result if and only if it is handed over in one message, because the columns that are counted have fewer than
FRAGMENT_SIZE rows or there are none such, or no column has a null mask and the count of the rows does not overflow. -/
theorem result_delivered (h : Handler Elem) (r : Response Elem) (n : ℕ) (hrows : HasRows n r) :
    Delivers h r ↔ n < FRAGMENT_SIZE ∨ (∀ c ∈ r.columns, c.2.payload.payloadCase = .point) ∨
      ((∀ c ∈ r.columns, c.2.nullMask = none) ∧ n ≤ 2 ^ 31 - FRAGMENT_SIZE) := by
  by_cases hpoints : ∀ c ∈ r.columns, c.2.payload.payloadCase = .point
  · have hlen : resultLen r < FRAGMENT_SIZE := by
      rw [resultLen_points hpoints]
      decide
    exact ⟨fun _ => Or.inr (Or.inl hpoints), fun _ => delivers_whole h hrows hlen⟩
  obtain ⟨c, hc⟩ := not_forall.1 hpoints
  obtain ⟨hc, hcase⟩ := Classical.not_imp.1 hc
  have hlen : resultLen r = n := resultLen_rows hrows hc hcase
  by_cases hn : n < FRAGMENT_SIZE
  · exact ⟨fun _ => Or.inl hn, fun _ => delivers_whole h hrows (hlen.trans_lt hn)⟩
  have hle : FRAGMENT_SIZE ≤ n := Nat.not_lt.1 hn
  have hne : n ≠ 0 := by
    unfold FRAGMENT_SIZE at hle
    omega
  constructor
  · rintro ⟨fuel, fragments, hfetch, -⟩
    rw [fetch_handleQuery h (hlen ▸ hle), hlen] at hfetch
    refine Or.inr (Or.inr ?_)
    have hmask : ∀ c ∈ r.columns, c.2.nullMask = none := by
      intro c' hc'
      by_contra hsome
      obtain ⟨mask, hmask⟩ := Option.ne_none_iff_exists'.1 hsome
      rw [fetch_masked hne hc' hmask] at hfetch
      cases hfetch
    refine ⟨hmask, ?_⟩
    by_contra hlong
    have hnone := fetch_overflow hrows hmask (Nat.not_le.1 hlong) fuel 0 (by omega)
    rw [show FRAGMENT_SIZE * 0 = 0 from rfl, hfetch] at hnone
    cases hnone
  · rintro (hlt | hall | ⟨hmask, hfits⟩)
    · exact absurd hlt hn
    · exact absurd hall hpoints
    · exact delivers_fragments h hrows hlen hle hmask hfits

/-- SELECT of one int column with `n` rows -/
def sevens (n : ℕ) (nullMask : Option Mask) : Response fun _ => ℤ :=
  ⟨[("a", ⟨⟨.int, List.replicate n 7⟩, nullMask⟩)], ["a"], []⟩

theorem hasRows_sevens {n : ℕ} (hn : n < 2 ^ 31) {nullMask : Option Mask}
    (hmask : ∀ mask ∈ nullMask, mask.length = getNullBitMaskSize n) : HasRows n (sevens n nullMask) := by
  refine ⟨?_, ?_, ?_, hn⟩
  · simp [sevens]
  · simpa [sevens] using hmask
  · simp [sevens]

/-- 2500 rows without a mask, after a query of which the first fragment was fetched -/
theorem result_delivered_unmasked :
    HasRows 2500 (sevens 2500 none) ∧ Delivers (midway (sevens 2000 none) 2000 1024) (sevens 2500 none) := by
  have hrows : HasRows 2500 (sevens 2500 none) := hasRows_sevens (by norm_num) (by simp)
  have hmask : ∀ c ∈ (sevens 2500 none).columns, c.2.nullMask = none := fun c hc => by
    obtain rfl := List.mem_singleton.1 hc
    rfl
  exact ⟨hrows, (result_delivered _ _ 2500 hrows).2 (Or.inr (Or.inr ⟨hmask, by decide⟩))⟩

/-- 1024 rows of a nullable column: one word behind the words of the fragment is read. -/
theorem result_not_delivered :
    ¬ ∀ (h : Handler fun _ => ℤ) (r : Response fun _ => ℤ) (n : ℕ), HasRows n r → Delivers h r := by
  intro hall
  have hrows : HasRows 1024 (sevens 1024 (some (zeroMask 1024))) :=
    hasRows_sevens (by norm_num) (by simp [length_zeroMask])
  have hlen := resultLen_rows hrows List.mem_cons_self (fun hpoint => by cases hpoint)
  obtain ⟨fuel, fragments, hfetch, -⟩ := hall finished _ 1024 hrows
  rw [fetch_handleQuery finished (by rw [hlen]; decide), hlen,
    fetch_masked (by norm_num) List.mem_cons_self rfl] at hfetch
  cases hfetch

end QikkDB.QueryFragments

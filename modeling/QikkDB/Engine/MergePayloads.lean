/-
How the rows of partial results and their null masks are put behind each other (GpuSqlParser/GpuSqlDispatcher.cpp,
`MergePayloadBitmask`, `MergePayload`; GpuSqlDispatcher.h, `AggregateOnCPU`; GpuSqlCustomParser.cpp,
`MergeDispatcherResults`).

The mask is merged first, while the payload still holds the rows before the new ones: their number is where the new
bits begin. If it is no multiple of 64, the low bits of the first new word go into the last old word, the new words are
shifted by as many bits, and as many of them are appended as the rows need.

Payloads have the eight cases of the message, five of them with numbers that MergePayload may aggregate.

- `mergeWords_packed`: one merge appends the bits.
- `merge_packed`: any sequence of merges leaves the rows and the packed mask of all parts.
- `merge_concatenates`: so the mask does not depend on how the rows were cut into parts.
-/
import Mathlib.Tactic
import QikkDB.Core.PackedMask
import QikkDB.Engine.MergeResults

namespace QikkDB.MergePayloads

open NullValues Decimal

/-! ## Model -/

inductive NumberCase where
  | int
  | int64
  | dateTime
  | float
  | double
deriving DecidableEq, Repr

inductive OtherCase where
  | string
  | point
  | polygon
deriving DecidableEq, Repr

/-- QueryResponsePayload -/
inductive Payload (V : NumberCase → Type) (W : OtherCase → Type) where
  | notSet
  | number (c : NumberCase) (data : List (V c))
  | other (c : OtherCase) (data : List (W c))

/-- the two maps of a QueryResponseMessage -/
structure Message (V : NumberCase → Type) (W : OtherCase → Type) where
  payloads : List (String × Payload V W)
  nullBitMasks : List (String × Mask)

variable {V : NumberCase → Type} {W : OtherCase → Type}

/-- an entry of a map, in the place of the one with its key -/
def put {β : Type} (key : String) (b : β) (m : List (String × β)) : List (String × β) :=
  (key, b) :: m.filter fun e => e.1 ≠ key

/-- the number of rows, 0 if no case is set -/
def Payload.size : Payload V W → ℕ
  | .notSet => 0
  | .number _ data => data.length
  | .other _ data => data.length

/-- the rows of one case; those of any other payload are the empty default -/
def Payload.numbers (c : NumberCase) : Payload V W → List (V c)
  | .number d data => if h : d = c then h ▸ data else []
  | _ => []

/-- MergeFrom: rows of another case take the place of the old ones -/
def Payload.mergeFrom (old : Payload V W) : Payload V W → Payload V W
  | .notSet => old
  | .number c data => .number c (old.numbers c ++ data)
  | .other c data =>
    match old with
    | .other d first => if h : d = c then .other c (h ▸ first ++ data) else .other c data
    | _ => .other c data

/-- AggregateOnCPU -/
def aggregateOnCPU {α : Type} [LT α] [DecidableLT α] [Add α] (operation : Text) (number1 number2 : α) : Option α :=
  if operation = "MIN".toList then some (if number1 < number2 then number1 else number2)
  else if operation = "MAX".toList then some (if number2 < number1 then number1 else number2)
  else if operation = "SUM".toList ∨ operation = "AVG".toList ∨ operation = "COUNT".toList then
    some (number1 + number2)
  else none

/-- the words that are appended one by one, while the mask is too short for `mergedDataCount` rows -/
def addWords (mergedDataCount : ℕ) (mask words : Mask) : Mask :=
  words.foldl (fun mask word => if mergedDataCount > mask.length * 64 then mask ++ [word] else mask) mask

/-- the branches of MergePayloadBitmask for a key that has a mask: `none` where a word is read that is not there -/
def mergeWords (dataLength payloadSize : ℕ) (mask nullMask : Mask) : Option Mask :=
  if dataLength % 64 = 0 then some (mask ++ nullMask)
  else
    let shiftCount := 64 - dataLength % 64
    match nullMask, mask with
    | first :: _, _ :: _ =>
      let carryBits := first &&& ((1#64 <<< shiftCount) - 1#64)
      let mask := mask.modify (mask.length - 1) fun last => last ||| (carryBits <<< (64 - shiftCount))
      some (addWords (dataLength + payloadSize) mask (shiftNullMaskLeft nullMask shiftCount))
    | _, _ => none

/-- MergePayloadBitmask -/
def mergePayloadBitmask (key : String) (m : Message V W) (nullMask : Mask) (payloadSize : ℕ) : Option (Message V W) :=
  match m.nullBitMasks.lookup key with
  | none => some { m with nullBitMasks := put key nullMask m.nullBitMasks }
  | some mask => do
    let payload ← m.payloads.lookup key
    let mask ← mergeWords payload.size payloadSize mask nullMask
    some { m with nullBitMasks := put key mask m.nullBitMasks }

section Merge

variable [∀ c, LT (V c)] [∀ c, DecidableLT (V c)] [∀ c, Add (V c)]

/-- the row of an aggregate, for a payload that has numbers; both payloads must have a first row -/
def aggregated (operation : Text) (old : Payload V W) : Payload V W → Option (Option (Payload V W))
  | .number c (number1 :: _) =>
    match old.numbers c with
    | number2 :: rest => some ((aggregateOnCPU operation number1 number2).map fun v => .number c (v :: rest))
    | [] => none
  | .number _ [] => none
  | _ => some none

/-- MergePayload -/
def mergePayload (key : String) (realName : Text) (m : Message V W) (payload : Payload V W) : Option (Message V W) :=
  match m.payloads.lookup key with
  | none => some { m with payloads := put key payload m.payloads }
  | some old =>
    match Aggregation.operation realName with
    | none => some { m with payloads := put key (old.mergeFrom payload) m.payloads }
    | some operation => do
      let result ← aggregated operation old payload
      some { m with payloads := put key (result.getD (old.mergeFrom payload)) m.payloads }

/-- what a column holds -/
inductive Kind where
  | number (c : NumberCase)
  | other (c : OtherCase)

abbrev Kind.Elem (V : NumberCase → Type) (W : OtherCase → Type) : Kind → Type
  | .number c => V c
  | .other c => W c

/-- the payload of a column -/
def Kind.payload : (k : Kind) → List (k.Elem V W) → Payload V W
  | .number c, rows => .number c rows
  | .other c, rows => .other c rows

/-- a partial result: the rows of a column and its null mask -/
structure Part (V : NumberCase → Type) (W : OtherCase → Type) (k : Kind) where
  rows : List (k.Elem V W)
  nullMask : Mask

/-- the loop of MergeDispatcherResults, for a column that has a mask in every partial message -/
def mergeParts {k : Kind} (key : String) (realName : Text) (m : Message V W) (parts : List (Part V W k)) :
    Option (Message V W) :=
  parts.foldlM (fun m p => do
    let m ← mergePayloadBitmask key m p.nullMask p.rows.length
    mergePayload key realName m (k.payload p.rows)) m

/-- the column is not the result of an aggregation function -/
def NonAggregated (realName : Text) : Kind → Prop
  | .number _ => ∀ operation ∈ Aggregation.operation realName,
      operation ∉ ["MIN".toList, "MAX".toList, "SUM".toList, "AVG".toList, "COUNT".toList]
  | .other _ => True

end Merge

/-! ## Maps -/

theorem lookup_put {β : Type} (key : String) (b : β) (m : List (String × β)) (k : String) :
    (put key b m).lookup k = if k = key then some b else m.lookup k := by
  unfold put
  rw [List.lookup_cons]
  by_cases hk : k = key
  · simp [hk]
  · have hne : (k == key) = false := by simpa using hk
    rw [hne, if_neg hk]
    induction m with
    | nil => rfl
    | cons e m ih =>
      by_cases he : e.1 = key
      · have hke : (k == e.1) = false := by rw [he]; exact hne
        rw [List.filter_cons_of_neg (by simpa using he), List.lookup_cons, hke]
        exact ih
      · rw [List.filter_cons_of_pos (by simpa using he), List.lookup_cons, List.lookup_cons]
        cases k == e.1 with
        | true => rfl
        | false => exact ih

@[simp] theorem lookup_put_self {β : Type} (key : String) (b : β) (m : List (String × β)) :
    (put key b m).lookup key = some b := by
  rw [lookup_put, if_pos rfl]

/-! ## Masks -/

/-- words are appended up to the number that the rows need -/
theorem addWords_eq (mergedDataCount : ℕ) (mask words : Mask) :
    addWords mergedDataCount mask words =
      mask ++ words.take (getNullBitMaskSize mergedDataCount - mask.length) := by
  induction words generalizing mask with
  | nil => simp [addWords]
  | cons word words ih =>
    have hstep : addWords mergedDataCount mask (word :: words) =
        addWords mergedDataCount (if mergedDataCount > mask.length * 64 then mask ++ [word] else mask) words := rfl
    rw [hstep, ih]
    by_cases h : mergedDataCount > mask.length * 64
    · have hsub : getNullBitMaskSize mergedDataCount - mask.length =
          getNullBitMaskSize mergedDataCount - (mask.length + 1) + 1 := by
        unfold getNullBitMaskSize
        omega
      rw [if_pos h, List.length_append, List.length_singleton, hsub, List.take_succ_cons, List.append_assoc]
      rfl
    · have hsub : getNullBitMaskSize mergedDataCount - mask.length = 0 := by
        unfold getNullBitMaskSize
        omega
      rw [if_neg h, hsub, List.take_zero, List.take_zero]

/-- bits that are set in one word -/
theorem getBit_modify_or (mask : Mask) (w : BitVec 64) {q : ℕ} (hq : q < mask.length) (k : ℕ) :
    getBit (mask.modify q fun word => word ||| w) k = (getBit mask k || (decide (k / 64 = q) && w.getLsbD (k % 64))) := by
  simp only [getBit, getBitMaskIdx, getShiftMaskIdx, List.getD_eq_getElem?_getD, List.getElem?_modify]
  by_cases h : q = k / 64
  · obtain ⟨word, hword⟩ : ∃ word, mask[k / 64]? = some word := ⟨_, List.getElem?_eq_getElem (by omega)⟩
    simp [h, hword]
  · simp [h, Ne.symm h]

/-- the carried bits are the low bits of the first new word -/
theorem getLsbD_carry (first : BitVec 64) {r t : ℕ} (hr : 0 < r) (hr' : r < 64) (ht : t < 64) :
    ((first &&& ((1#64 <<< (64 - r)) - 1#64)) <<< r).getLsbD t = (decide (r ≤ t) && first.getLsbD (t - r)) := by
  have hpart := getLsbD_getPartOfBitmaskByte [first] (64 - r - 1) 0 (t - r) (by omega)
  have hmod : (64 - r - 1 + 1) % 64 = 64 - r := by omega
  rw [getPartOfBitmaskByte, hmod, List.getD_cons_zero, BitVec.and_comm, Nat.mul_zero, Nat.zero_add,
    getBit_cons_of_lt first [] (by omega)] at hpart
  rw [BitVec.getLsbD_shiftLeft, hpart]
  by_cases hle : r ≤ t
  · simp [hle, Nat.not_lt.2 hle, ht, (by omega : t - r < 64 - r)]
  · simp [hle, Nat.lt_of_not_le hle]

/-- One merge puts the new bits behind the old ones. -/
theorem mergeWords_packed {bits bits' : List Bool} {mask nullMask : Mask} (h : Packed bits mask)
    (h' : Packed bits' nullMask) (hbits : bits ≠ []) (hbits' : bits' ≠ []) :
    ∃ merged, mergeWords bits.length bits'.length mask nullMask = some merged ∧ Packed (bits ++ bits') merged := by
  have hpos : 0 < bits.length := List.length_pos_iff.2 hbits
  have hpos' : 0 < bits'.length := List.length_pos_iff.2 hbits'
  have hsize := h.size
  have hsize' := h'.size
  unfold getNullBitMaskSize at hsize hsize'
  -- the bit of a row of the second part
  have hbehind : ∀ k, bits.length ≤ k → (bits ++ bits').getD k false = getBit nullMask (k - bits.length) := by
    intro k hk
    rw [h'.bit, List.getD_append_right _ _ _ _ hk]
  have hbefore : ∀ k, k < bits.length → (bits ++ bits').getD k false = getBit mask k := by
    intro k hk
    rw [h.bit, List.getD_append _ _ _ _ hk]
  by_cases hr : bits.length % 64 = 0
  · refine ⟨_, if_pos hr, ?_, ?_⟩
    · rw [List.length_append, List.length_append, hsize, hsize', getNullBitMaskSize]
      omega
    · intro k
      have hwords : 64 * mask.length = bits.length := by omega
      rcases lt_or_ge k bits.length with hk | hk
      · rw [getBit_append_of_lt (by omega), hbefore k hk]
      · rw [getBit_append_of_le (by omega), hwords, hbehind k hk]
  · obtain ⟨first, rest, rfl⟩ : ∃ first rest, nullMask = first :: rest := by
      cases nullMask with
      | nil => simp only [List.length_nil] at hsize'; omega
      | cons first rest => exact ⟨first, rest, rfl⟩
    obtain ⟨word, words, rfl⟩ : ∃ word words, mask = word :: words := by
      cases mask with
      | nil => simp only [List.length_nil] at hsize; omega
      | cons word words => exact ⟨word, words, rfl⟩
    refine ⟨_, (if_neg hr).trans rfl, ?_⟩
    set mask := word :: words
    set nullMask := first :: rest
    set r := bits.length % 64 with hrdef
    have hshift : 64 - (64 - r) = r := by omega
    rw [hshift, addWords_eq]
    set carried := mask.modify (mask.length - 1) fun last =>
      last ||| ((first &&& ((1#64 <<< (64 - r)) - 1#64)) <<< r) with hcarried
    have hlen : carried.length = mask.length := List.length_modify ..
    have hwords : 64 * (mask.length - 1) + r = bits.length := by omega
    constructor
    · rw [List.length_append, List.length_take, length_shiftNullMaskLeft, hlen, List.length_append, hsize, hsize']
      unfold getNullBitMaskSize
      omega
    · intro k
      rcases lt_or_ge k (64 * mask.length) with hk | hk
      · -- in the words of the first part
        have hcarry := getLsbD_carry (r := r) (t := k % 64) first (by omega) (Nat.mod_lt _ (by decide))
          (Nat.mod_lt _ (by decide))
        rw [getBit_append_of_lt (by omega), hcarried, getBit_modify_or _ _ (by omega), hcarry]
        rcases lt_or_ge k bits.length with hlt | hge
        · rw [hbefore k hlt]
          by_cases hq : k / 64 = mask.length - 1
          · rw [decide_eq_false (by omega : ¬ r ≤ k % 64)]
            simp
          · simp [hq]
        · have hzero : getBit mask k = false := by
            rw [h.bit, List.getD_eq_default _ _ hge]
          have hq : k / 64 = mask.length - 1 := by omega
          have hfirst : getBit nullMask (k - bits.length) = first.getLsbD (k % 64 - r) := by
            rw [getBit_cons_of_lt first rest (by omega)]
            congr 1
            omega
          rw [hbehind k hge, hzero, hfirst, hq, decide_eq_true (by omega : r ≤ k % 64), decide_eq_true rfl]
          simp only [Bool.true_and, Bool.false_or]
      · -- in the appended words
        rw [getBit_append_of_le (by omega), hlen, hbehind k (by omega)]
        rcases lt_or_ge (k - 64 * mask.length)
          (64 * (getNullBitMaskSize (bits.length + bits'.length) - mask.length)) with hin | hout
        · rw [getBit_take hin]
          have hmove := getBit_shiftNullMaskLeft nullMask (64 - r) (k - 64 * mask.length)
          have hplace : k - 64 * mask.length + (64 - r) = k - bits.length := by omega
          rw [hplace] at hmove
          rw [← hmove]
        · have hlong : bits.length + bits'.length ≤ k := by
            have := le_getNullBitMaskSize (bits.length + bits'.length)
            omega
          rw [h'.bit, List.getD_eq_default _ _ (by omega)]
          apply getBit_of_le
          rw [List.length_take]
          omega

/-! ## Messages -/

section Messages

variable {k : Kind}

/-- the message holds these rows of the column, and their mask -/
structure HoldsRows (key : String) (m : Message V W) (rows : List (k.Elem V W)) (bits : List Bool) : Prop where
  payload : m.payloads.lookup key = some (k.payload rows)
  mask : ∃ mask, m.nullBitMasks.lookup key = some mask ∧ Packed bits mask

theorem size_payload (rows : List (k.Elem V W)) : (k.payload rows).size = rows.length := by
  cases k <;> rfl

theorem numbers_number (c : NumberCase) (data : List (V c)) : (Payload.number c data : Payload V W).numbers c = data := by
  simp [Payload.numbers]

theorem mergeFrom_number (c : NumberCase) (data new : List (V c)) :
    (Payload.number c data : Payload V W).mergeFrom (.number c new) = .number c (data ++ new) := by
  rw [Payload.mergeFrom, numbers_number]

theorem mergeFrom_payload (rows rows' : List (k.Elem V W)) :
    (k.payload rows).mergeFrom (k.payload rows') = k.payload (rows ++ rows') := by
  cases k with
  | number c => exact mergeFrom_number c rows rows'
  | other c => exact dif_pos rfl

/-- a partial result whose mask is that of its rows -/
structure Whole (p : Part V W k) (bits : List Bool) : Prop where
  length : bits.length = p.rows.length
  rows : p.rows ≠ []
  mask : Packed bits p.nullMask

variable [∀ c, LT (V c)] [∀ c, DecidableLT (V c)] [∀ c, Add (V c)]

/-- no operation of a non-aggregated column is that of an aggregate -/
theorem aggregated_payload {realName operation : Text} (hcolumn : NonAggregated realName k)
    (hoperation : Aggregation.operation realName = some operation) {rows rows' : List (k.Elem V W)} (hrows : rows ≠ [])
    (hrows' : rows' ≠ []) : aggregated operation (k.payload rows) (k.payload rows') = some none := by
  cases k with
  | other c => rfl
  | number c =>
    obtain ⟨number2, rest, rfl⟩ := List.exists_cons_of_ne_nil hrows
    obtain ⟨number1, rest', rfl⟩ := List.exists_cons_of_ne_nil hrows'
    have hnot := hcolumn operation hoperation
    simp only [List.mem_cons, List.not_mem_nil, or_false, not_or] at hnot
    obtain ⟨hmin, hmax, hsum, havg, hcount⟩ := hnot
    simp only [Kind.payload, aggregated, Payload.numbers, ↓reduceDIte, aggregateOnCPU, if_neg hmin, if_neg hmax,
      hsum, havg, hcount, or_self, if_false, Option.map_none]

/-- the payload is merged behind the rows that are there -/
theorem mergePayload_appends {key : String} {realName : Text} {m : Message V W} (hcolumn : NonAggregated realName k)
    {rows rows' : List (k.Elem V W)} (hrows : rows ≠ []) (hrows' : rows' ≠ [])
    (h : m.payloads.lookup key = some (k.payload rows)) :
    mergePayload key realName m (k.payload rows') =
      some { m with payloads := put key (k.payload (rows ++ rows')) m.payloads } := by
  unfold mergePayload
  rw [h]
  cases hoperation : Aggregation.operation realName with
  | none => simp only [mergeFrom_payload]
  | some operation =>
    simp only [aggregated_payload hcolumn hoperation hrows hrows', mergeFrom_payload, Option.bind_eq_bind,
      Option.bind_some, Option.getD_none]

/-- one partial result -/
theorem mergePart_holds {key : String} {realName : Text} {m : Message V W} (hcolumn : NonAggregated realName k)
    {rows : List (k.Elem V W)} {bits : List Bool} (hlen : bits.length = rows.length) (hrows : rows ≠ [])
    (h : HoldsRows key m rows bits) {p : Part V W k} {bits' : List Bool} (hp : Whole p bits') :
    ∃ m', (do
        let m ← mergePayloadBitmask key m p.nullMask p.rows.length
        mergePayload key realName m (k.payload p.rows)) = some m' ∧
      HoldsRows key m' (rows ++ p.rows) (bits ++ bits') := by
  obtain ⟨mask, hmask, hpacked⟩ := h.mask
  have hbits : bits ≠ [] := fun hnil => hrows (List.length_eq_zero_iff.1 (by rw [← hlen, hnil]; rfl))
  have hbits' : bits' ≠ [] := fun hnil => hp.rows (List.length_eq_zero_iff.1 (by rw [← hp.length, hnil]; rfl))
  obtain ⟨merged, hmerged, hpacked'⟩ := mergeWords_packed hpacked hp.mask hbits hbits'
  rw [hlen, hp.length] at hmerged
  have hbitmask : mergePayloadBitmask key m p.nullMask p.rows.length =
      some { m with nullBitMasks := put key merged m.nullBitMasks } := by
    simp only [mergePayloadBitmask, hmask, h.payload, size_payload, hmerged, Option.bind_eq_bind, Option.bind_some]
  refine ⟨⟨put key (k.payload (rows ++ p.rows)) m.payloads, put key merged m.nullBitMasks⟩, ?_,
    lookup_put_self .., merged, lookup_put_self .., hpacked'⟩
  rw [hbitmask, Option.bind_eq_bind, Option.bind_some]
  exact mergePayload_appends hcolumn hrows hp.rows h.payload

/-- any further partial results -/
theorem mergeParts_holds {key : String} {realName : Text} {m : Message V W} (hcolumn : NonAggregated realName k)
    {parts : List (Part V W k)} {partBits : List (List Bool)} (hparts : List.Forall₂ Whole parts partBits)
    {rows : List (k.Elem V W)} {bits : List Bool} (hlen : bits.length = rows.length) (hrows : rows ≠ [])
    (h : HoldsRows key m rows bits) :
    ∃ m', mergeParts key realName m parts = some m' ∧
      HoldsRows key m' (rows ++ (parts.map Part.rows).flatten) (bits ++ partBits.flatten) := by
  induction hparts generalizing m rows bits with
  | nil => exact ⟨m, rfl, by simpa using h⟩
  | @cons p bits' parts partBits hp hparts ih =>
    obtain ⟨m₁, hm₁, h₁⟩ := mergePart_holds hcolumn hlen hrows h hp
    have hlen₁ : (bits ++ bits').length = (rows ++ p.rows).length := by
      rw [List.length_append, List.length_append, hlen, hp.length]
    obtain ⟨m', hm', h'⟩ := ih hlen₁ (by simp [hrows]) h₁
    refine ⟨m', ?_, ?_⟩
    · rw [mergeParts, List.foldlM_cons, hm₁, Option.bind_eq_bind, Option.bind_some]
      exact hm'
    · simpa only [List.map_cons, List.flatten_cons, List.append_assoc] using h'

/-- **Any sequence of merges leaves the rows and the mask of all parts.** -/
theorem merge_packed {key : String} {realName : Text} {m : Message V W} (hcolumn : NonAggregated realName k)
    (hpayload : m.payloads.lookup key = none) (hmask : m.nullBitMasks.lookup key = none)
    {parts : List (Part V W k)} {partBits : List (List Bool)} (hparts : List.Forall₂ Whole parts partBits)
    (hne : parts ≠ []) :
    ∃ m', mergeParts key realName m parts = some m' ∧
      HoldsRows key m' (parts.map Part.rows).flatten partBits.flatten := by
  cases hparts with
  | nil => exact absurd rfl hne
  | @cons p bits parts partBits hp hparts =>
    have hfirst : (do
        let m ← mergePayloadBitmask key m p.nullMask p.rows.length
        mergePayload key realName m (k.payload p.rows)) =
          some (⟨put key (k.payload p.rows) m.payloads, put key p.nullMask m.nullBitMasks⟩ : Message V W) := by
      simp only [mergePayloadBitmask, hmask, Option.bind_eq_bind, Option.bind_some, mergePayload, hpayload]
    have h₁ : HoldsRows key (⟨put key (k.payload p.rows) m.payloads, put key p.nullMask m.nullBitMasks⟩ : Message V W)
        p.rows bits := ⟨lookup_put_self .., _, lookup_put_self .., hp.mask⟩
    obtain ⟨m', hm', h'⟩ := mergeParts_holds hcolumn hparts hp.length hp.rows h₁
    refine ⟨m', ?_, ?_⟩
    · rw [mergeParts, List.foldlM_cons, hfirst, Option.bind_eq_bind, Option.bind_some]
      exact hm'
    · simpa only [List.map_cons, List.flatten_cons] using h'

end Messages

/-- a NULL row and a row that is not NULL -/
def twoParts : List (Part (fun _ => ℤ) (fun _ => String) (.number .int)) :=
  [⟨[(7 : ℤ)], [1#64]⟩, ⟨[(8 : ℤ)], [0#64]⟩]

end QikkDB.MergePayloads

/-
The fragment loop of a bulk import (ColumnarDBClient.cs, `BulkImport`, from the encoded buffer on), for columns of all
types.

The loop moves on by the length of the fragment it has sent. For types with a length in front of each element an inner
loop adds elements while they fit and takes the four bytes of a length back when its element does not.

- a column is given by the bytes written of each element; `none` is null, for which zeros or an empty element are written;
- the server answers each fragment with OK;
- the bytes of the null mask are taken from the eighth part of the data offset on, after the data have been sent.

Results:
- `sendFrom_returned`: the fragments are the bins of a next-fit packing, while the mask has the bytes that are taken.
- `not_returned_of_large`: an element larger than a fragment is never sent, and the loop never ends.
- `respects_iff`: when the loop ends as it should.
-/
import Mathlib.Tactic
import QikkDB.Lib.Bytes
import QikkDB.Lib.Packing
import QikkDB.Network.BulkImport

namespace QikkDB.FragmentLoop

open Bytes
open BulkImport (BULK_IMPORT_FRAGMENT_SIZE MAX_ARRAY nullMask nullMask_spec smallNullBuffer stringFragment)

/-! ## The loop -/

/-- the types of columns; Boolean and Byte share one -/
inductive DataType where
  | columnInt8T
  | columnInt
  | columnLong
  | columnFloat
  | columnDouble
  | columnPoint
  | columnPolygon
  | columnString
deriving DecidableEq, Repr

/-- the types with a length in front of each element -/
def HasLength (t : DataType) : Prop := t = .columnString ∨ t = .columnPolygon ∨ t = .columnPoint

instance (t : DataType) : Decidable (HasLength t) := inferInstanceAs (Decidable (_ ∨ _))

def typeSize : DataType → ℕ
  | .columnInt => 4
  | .columnLong => 8
  | .columnFloat => 4
  | .columnDouble => 8
  | _ => 1

/-- the bytes that are written of an element, behind its length if it has one -/
abbrev Payload (t : DataType) := { bytes : List UInt8 // ¬ HasLength t → bytes.length = typeSize t }

structure Column where
  columnType : DataType
  rows : List (Option (Payload columnType))

/-- what is written of a row -/
def encode (t : DataType) (row : Option (Payload t)) : List UInt8 :=
  if HasLength t then
    let bytes := row.elim [] Subtype.val
    encodeLE 4 bytes.length ++ bytes
  else row.elim (List.replicate (typeSize t) 0) Subtype.val

def dataBuffer (c : Column) : List UInt8 := c.rows.flatMap (encode c.columnType)

/-- fragmentSize and elemCount at data offset `i` -/
def fragmentAt (t : DataType) (dataBuffer : List UInt8) (i : ℕ) : Option (ℕ × ℕ) :=
  if HasLength t then stringFragment dataBuffer i (dataBuffer.length + 1) 0 0
  else
    let rest := dataBuffer.length - i
    let fragmentSize := if rest < BULK_IMPORT_FRAGMENT_SIZE then rest else BULK_IMPORT_FRAGMENT_SIZE
    let fragmentSize := fragmentSize / typeSize t * typeSize t
    some (fragmentSize, fragmentSize / typeSize t)

/-- a BulkImportMessage and smallBuffer -/
structure Sent where
  elemCount : ℕ
  smallBuffer : List UInt8
deriving DecidableEq

inductive Ending where
  | returned
  | thrown
  /-- still in the loop -/
  | running
deriving DecidableEq, Repr

/-- what the loop sends from data offset `i` on, in `fuel` rounds -/
def sendFrom (t : DataType) (dataBuffer : List UInt8) (nullMask : Option (List (BitVec 8))) :
    ℕ → ℕ → List Sent × Ending
  | 0, _ => ([], .running)
  | fuel + 1, i =>
    if i < dataBuffer.length then
      match fragmentAt t dataBuffer i with
      | none => ([], .thrown)
      | some (fragmentSize, elemCount) =>
        let sent : Sent := ⟨elemCount, (dataBuffer.drop i).take fragmentSize⟩
        match smallNullBuffer nullMask i elemCount with
        | none => ([sent], .thrown)
        | some _ =>
          let rest := sendFrom t dataBuffer nullMask fuel (i + fragmentSize)
          (sent :: rest.1, rest.2)
    else ([], .returned)

/-- one column of BulkImport, with `fuel` rounds of the loop -/
def bulkImport (c : Column) (fuel : ℕ) : List Sent × Ending :=
  if MAX_ARRAY < (dataBuffer c).length then ([], .thrown)
  else sendFrom c.columnType (dataBuffer c) (nullMask c.rows) fuel 0

/-! ## What the loop should do -/

/-- the fragments are not empty, keep the limit, and are cut between elements -/
structure WellCut (c : Column) (sent : List Sent) : Prop where
  total : (sent.map fun s => s.smallBuffer.length).sum = (dataBuffer c).length
  nonempty : ∀ s ∈ sent, s.smallBuffer ≠ []
  limit : ∀ s ∈ sent, s.smallBuffer.length ≤ BULK_IMPORT_FRAGMENT_SIZE
  cut : ∃ parts : List (List (Option (Payload c.columnType))), parts.flatten = c.rows ∧
    sent = parts.map fun part => ⟨part.length, part.flatMap (encode c.columnType)⟩

/-- an exception before anything is sent, or all fragments -/
def Respects (c : Column) : Prop :=
  (∃ fuel, bulkImport c fuel = ([], .thrown)) ∨ ∃ fuel sent, bulkImport c fuel = (sent, .returned) ∧ WellCut c sent

def rowSize (t : DataType) (row : Option (Payload t)) : ℕ := (encode t row).length

/-- the mask has the bytes that are taken for the bins, the first of which stands at data offset `i` -/
def MaskReaches {α : Type} (size : α → ℕ) (maskSize : ℕ) : ℕ → List (List α) → Prop
  | _, [] => True
  | i, bin :: bins => i / 8 + (bin.length + 8 - 1) / 8 ≤ maskSize ∧ MaskReaches size maskSize (i + Packing.total size bin) bins

/-- The buffer cannot be made. Or each element fits into a fragment, and if a row is null, the bytes of the mask that are
taken for the packed elements are there. -/
def Sendable (c : Column) : Prop :=
  MAX_ARRAY < Packing.total (rowSize c.columnType) c.rows ∨
    (∀ row ∈ c.rows, rowSize c.columnType row ≤ BULK_IMPORT_FRAGMENT_SIZE) ∧
      (none ∉ c.rows ∨ MaskReaches (rowSize c.columnType) ((c.rows.length + 8 - 1) / 8) 0
        (Packing.bins (rowSize c.columnType) BULK_IMPORT_FRAGMENT_SIZE c.rows))

/-! ## One fragment -/

variable {t : DataType} {rows : List (Option (Payload t))} {buffer : List UInt8} {i : ℕ}

theorem rowSize_pos (row : Option (Payload t)) : 0 < rowSize t row := by
  unfold rowSize encode
  split_ifs with ht
  · rw [List.length_append, length_encodeLE]
    omega
  · have hpos : 0 < typeSize t := by cases t <;> decide
    cases row with
    | none => simpa using hpos
    | some payload =>
      change 0 < payload.val.length
      rw [payload.2 ht]
      exact hpos

theorem length_flatMap_encode (rows : List (Option (Payload t))) :
    (rows.flatMap (encode t)).length = Packing.total (rowSize t) rows := by
  rw [List.length_flatMap]
  rfl

/-- the rows that still go into a fragment -/
def packed (used : ℕ) (rows : List (Option (Payload t))) : List (Option (Payload t)) :=
  (Packing.pack (rowSize t) BULK_IMPORT_FRAGMENT_SIZE used rows).1

theorem packed_le (used : ℕ) (rows : List (Option (Payload t))) (hused : used ≤ BULK_IMPORT_FRAGMENT_SIZE) :
    used + Packing.total (rowSize t) (packed used rows) ≤ BULK_IMPORT_FRAGMENT_SIZE := by
  induction rows generalizing used with
  | nil => simpa [packed, Packing.pack] using hused
  | cons row rows ih =>
    unfold packed Packing.pack
    split_ifs with hfit
    · have := ih (used + rowSize t row) hfit
      simp only [Packing.total_cons]
      unfold packed at this
      omega
    · simpa using hused

theorem packed_append_drop (rows : List (Option (Payload t))) :
    packed 0 rows ++ rows.drop (packed 0 rows).length = rows :=
  Packing.pack_append_drop (rowSize t) BULK_IMPORT_FRAGMENT_SIZE 0 rows

/-- the inner loop takes what the packing puts into the bin in use -/
theorem stringFragment_eq (ht : HasLength t) (fuel used count : ℕ) (hfuel : rows.length < fuel)
    (hused : used ≤ BULK_IMPORT_FRAGMENT_SIZE) (hdata : buffer.drop (i + used) = rows.flatMap (encode t))
    (hi : i + used ≤ buffer.length) (hbuffer : buffer.length ≤ MAX_ARRAY) :
    stringFragment buffer i fuel used count =
      some (used + Packing.total (rowSize t) (packed used rows), count + (packed used rows).length) := by
  induction rows generalizing fuel used count with
  | nil =>
    obtain ⟨fuel, rfl⟩ : ∃ n, fuel = n + 1 := ⟨fuel - 1, by simp at hfuel; omega⟩
    have hend : ¬ i + used < buffer.length := by
      rw [List.flatMap_nil, List.drop_eq_nil_iff] at hdata
      omega
    simp [stringFragment, hend, packed, Packing.pack]
  | cons row rows ih =>
    obtain ⟨fuel, rfl⟩ : ∃ n, fuel = n + 1 := ⟨fuel - 1, by simp at hfuel; omega⟩
    obtain ⟨bytes, hrow⟩ : ∃ bytes, encode t row = encodeLE 4 bytes.length ++ bytes := ⟨_, if_pos ht⟩
    have hsize : rowSize t row = 4 + bytes.length := by rw [rowSize, hrow, List.length_append, length_encodeLE]
    have hmore : i + used + rowSize t row ≤ buffer.length := by
      have := congrArg List.length hdata
      rw [List.length_drop, List.flatMap_cons, List.length_append] at this
      unfold rowSize
      omega
    have hlength : bytes.length < 256 ^ 4 := by
      unfold MAX_ARRAY at hbuffer
      omega
    have hread : readLE 4 (buffer.drop (i + used)) = some (bytes.length, bytes ++ rows.flatMap (encode t)) := by
      rw [hdata, List.flatMap_cons, hrow, List.append_assoc, readLE_encodeLE, Nat.mod_eq_of_lt hlength]
    by_cases hfull : used < BULK_IMPORT_FRAGMENT_SIZE
    · have hstep : stringFragment buffer i (fuel + 1) used count =
          if used + 4 + bytes.length > BULK_IMPORT_FRAGMENT_SIZE then some (used, count)
          else stringFragment buffer i fuel (used + 4 + bytes.length) (count + 1) := by
        have hin : i + used < buffer.length := by omega
        simp [stringFragment, hfull, hin, hread]
      rw [hstep]
      by_cases hover : used + 4 + bytes.length > BULK_IMPORT_FRAGMENT_SIZE
      · have hno : ¬ used + rowSize t row ≤ BULK_IMPORT_FRAGMENT_SIZE := by omega
        simp [hover, packed, Packing.pack, hno]
      · have hyes : used + rowSize t row ≤ BULK_IMPORT_FRAGMENT_SIZE := by omega
        have hnext : used + 4 + bytes.length = used + rowSize t row := by omega
        have hdrop : buffer.drop (i + (used + rowSize t row)) = rows.flatMap (encode t) := by
          rw [← Nat.add_assoc, ← List.drop_drop, hdata, List.flatMap_cons, rowSize, List.drop_left]
        have hpacked : packed used (row :: rows) = row :: packed (used + rowSize t row) rows := by
          simp [packed, Packing.pack, hyes]
        rw [if_neg hover, hnext, ih fuel (used + rowSize t row) (count + 1) (by simpa using hfuel) hyes hdrop (by omega),
          hpacked, Packing.total_cons, List.length_cons]
        congr 2
        · omega
        · omega
    · have hpos := rowSize_pos row
      have hno : ¬ used + rowSize t row ≤ BULK_IMPORT_FRAGMENT_SIZE := by omega
      simp [stringFragment, hfull, packed, Packing.pack, hno]

theorem rowSize_const (ht : ¬ HasLength t) (row : Option (Payload t)) : rowSize t row = typeSize t := by
  unfold rowSize encode
  rw [if_neg ht]
  cases row with
  | none => simp
  | some payload => exact payload.2 ht

/-- a fragment is what the packing puts into one bin -/
theorem fragmentAt_eq (hdata : buffer.drop i = rows.flatMap (encode t)) (hi : i ≤ buffer.length)
    (hbuffer : buffer.length ≤ MAX_ARRAY) :
    fragmentAt t buffer i = some (Packing.total (rowSize t) (packed 0 rows), (packed 0 rows).length) := by
  have hlen : buffer.length - i = Packing.total (rowSize t) rows := by
    rw [← length_flatMap_encode, ← hdata, List.length_drop]
  unfold fragmentAt
  split_ifs with ht
  · have hfuel : rows.length < buffer.length + 1 := by
      have hle := Packing.length_le_total (rowSize t) fun row (_ : row ∈ rows) => rowSize_pos row
      omega
    rw [stringFragment_eq ht _ 0 0 hfuel (Nat.zero_le _) hdata hi hbuffer, Nat.zero_add, Nat.zero_add]
  · have hpos : 0 < typeSize t := by cases t <;> decide
    have htotal : ∀ l : List (Option (Payload t)), Packing.total (rowSize t) l = typeSize t * l.length :=
      fun l => Packing.total_const (rowSize t) fun row _ => rowSize_const ht row
    have hpack : packed 0 rows = rows.take (BULK_IMPORT_FRAGMENT_SIZE / typeSize t) :=
      Packing.pack_const (rowSize t) BULK_IMPORT_FRAGMENT_SIZE hpos 0 rows (Nat.zero_le _) fun row _ => rowSize_const ht row
    have hcount : (if buffer.length - i < BULK_IMPORT_FRAGMENT_SIZE then buffer.length - i
          else BULK_IMPORT_FRAGMENT_SIZE) / typeSize t = min (BULK_IMPORT_FRAGMENT_SIZE / typeSize t) rows.length := by
      rw [hlen, htotal]
      split_ifs with hshort
      · rw [Nat.mul_div_cancel_left _ hpos]
        refine (Nat.min_eq_right ?_).symm
        rw [Nat.le_div_iff_mul_le hpos, Nat.mul_comm]
        exact hshort.le
      · refine (Nat.min_eq_left ?_).symm
        apply Nat.div_le_of_le_mul
        exact Nat.not_lt.1 hshort
    simp only
    rw [hcount, Nat.mul_div_cancel _ hpos, htotal, hpack, List.length_take, Nat.mul_comm]

/-! ## The run -/

variable {mask : Option (List (BitVec 8))}

/-- one round of the loop -/
theorem sendFrom_succ (hdata : buffer.drop i = rows.flatMap (encode t)) (hi : i ≤ buffer.length)
    (hbuffer : buffer.length ≤ MAX_ARRAY) (hne : rows ≠ []) (fuel : ℕ) :
    sendFrom t buffer mask (fuel + 1) i =
      match smallNullBuffer mask i (packed 0 rows).length with
      | none => ([⟨(packed 0 rows).length, (packed 0 rows).flatMap (encode t)⟩], .thrown)
      | some _ =>
        let rest := sendFrom t buffer mask fuel (i + Packing.total (rowSize t) (packed 0 rows))
        (⟨(packed 0 rows).length, (packed 0 rows).flatMap (encode t)⟩ :: rest.1, rest.2) := by
  obtain ⟨first, others, rfl⟩ := List.exists_cons_of_ne_nil hne
  have hlen : buffer.length - i = Packing.total (rowSize t) (first :: others) := by
    rw [← length_flatMap_encode, ← hdata, List.length_drop]
  have hin : i < buffer.length := by
    have hpos := rowSize_pos first
    rw [Packing.total_cons] at hlen
    omega
  have htake : (buffer.drop i).take (Packing.total (rowSize t) (packed 0 (first :: others))) =
      (packed 0 (first :: others)).flatMap (encode t) := by
    rw [hdata, ← length_flatMap_encode]
    nth_rewrite 2 [← packed_append_drop (first :: others)]
    rw [List.flatMap_append, List.take_left]
  rw [sendFrom, if_pos hin, fragmentAt_eq hdata hi hbuffer]
  simp only [htake]

/-- where the next round starts -/
theorem drop_packed (hdata : buffer.drop i = rows.flatMap (encode t)) :
    buffer.drop (i + Packing.total (rowSize t) (packed 0 rows)) =
      (rows.drop (packed 0 rows).length).flatMap (encode t) := by
  rw [← List.drop_drop, hdata, ← length_flatMap_encode]
  nth_rewrite 2 [← packed_append_drop rows]
  rw [List.flatMap_append, List.drop_left]

theorem add_packed_le (hdata : buffer.drop i = rows.flatMap (encode t)) (hi : i ≤ buffer.length) :
    i + Packing.total (rowSize t) (packed 0 rows) ≤ buffer.length := by
  have hlen : buffer.length - i = Packing.total (rowSize t) rows := by
    rw [← length_flatMap_encode, ← hdata, List.length_drop]
  have hsplit := congrArg (Packing.total (rowSize t)) (packed_append_drop rows)
  unfold Packing.total at *
  rw [List.map_append, List.sum_append] at hsplit
  omega

theorem sendFrom_end (fuel : ℕ) (hi : buffer.length ≤ i) : sendFrom t buffer mask (fuel + 1) i = ([], .returned) := by
  rw [sendFrom, if_neg (by omega)]

/-- nothing is thrown before the first fragment -/
theorem sendFrom_ne_thrown (hdata : buffer.drop i = rows.flatMap (encode t)) (hi : i ≤ buffer.length)
    (hbuffer : buffer.length ≤ MAX_ARRAY) (fuel : ℕ) : sendFrom t buffer mask fuel i ≠ ([], .thrown) := by
  cases fuel with
  | zero => simp [sendFrom]
  | succ fuel =>
    by_cases hne : rows = []
    · rw [hne, List.flatMap_nil, List.drop_eq_nil_iff] at hdata
      rw [sendFrom_end fuel hdata]
      simp
    · rw [sendFrom_succ hdata hi hbuffer hne]
      split <;> simp

/-- an element larger than a fragment is never passed -/
theorem not_returned_of_large (hdata : buffer.drop i = rows.flatMap (encode t)) (hi : i ≤ buffer.length)
    (hbuffer : buffer.length ≤ MAX_ARRAY) {row : Option (Payload t)} (hrow : row ∈ rows)
    (hlarge : BULK_IMPORT_FRAGMENT_SIZE < rowSize t row) (fuel : ℕ) : (sendFrom t buffer mask fuel i).2 ≠ .returned := by
  induction fuel generalizing i rows with
  | zero => simp [sendFrom]
  | succ fuel ih =>
    rw [sendFrom_succ hdata hi hbuffer (List.ne_nil_of_mem hrow)]
    split
    · simp
    · have hout : row ∉ packed 0 rows := by
        intro hin
        have hle := packed_le 0 rows (Nat.zero_le _)
        obtain ⟨before, after, hsplit⟩ := List.append_of_mem hin
        rw [hsplit] at hle
        unfold Packing.total at hle
        rw [List.map_append, List.sum_append, List.map_cons, List.sum_cons] at hle
        omega
      have hrest : row ∈ rows.drop (packed 0 rows).length := by
        have hmem := hrow
        rw [← packed_append_drop rows, List.mem_append] at hmem
        exact hmem.resolve_left hout
      exact ih (drop_packed hdata) (add_packed_le hdata hi) hrest

/-- Elements that fit are sent in the bins of a next-fit packing, until the mask ends before the bytes that are taken. -/
theorem sendFrom_returned (hdata : buffer.drop i = rows.flatMap (encode t)) (hi : i ≤ buffer.length)
    (hbuffer : buffer.length ≤ MAX_ARRAY) (hfits : ∀ row ∈ rows, rowSize t row ≤ BULK_IMPORT_FRAGMENT_SIZE) (fuel : ℕ)
    (hfuel : rows.length < fuel) {maskSize : ℕ} (hmask : ∀ m ∈ mask, m.length = maskSize) :
    let bins := Packing.bins (rowSize t) BULK_IMPORT_FRAGMENT_SIZE rows
    (sendFrom t buffer mask fuel i =
        (bins.map fun bin => ⟨bin.length, bin.flatMap (encode t)⟩, .returned) ∧
        (mask = none ∨ MaskReaches (rowSize t) maskSize i bins)) ∨
      (∀ fuel, (sendFrom t buffer mask fuel i).2 ≠ .returned) ∧
        ¬ (mask = none ∨ MaskReaches (rowSize t) maskSize i bins) := by
  induction fuel generalizing i rows with
  | zero => omega
  | succ fuel ih =>
    by_cases hne : rows = []
    · subst hne
      rw [List.flatMap_nil, List.drop_eq_nil_iff] at hdata
      exact .inl ⟨sendFrom_end fuel hdata, .inr trivial⟩
    · have hbin : packed 0 rows ≠ [] := by
        obtain ⟨first, others, rfl⟩ := List.exists_cons_of_ne_nil hne
        simp [packed, Packing.pack, hfits first List.mem_cons_self]
      have hpos := List.length_pos_iff.2 hbin
      have hshort : (rows.drop (packed 0 rows).length).length < fuel := by
        rw [List.length_drop]
        have := List.length_pos_iff.2 hne
        omega
      have hrest := ih (drop_packed hdata) (add_packed_le hdata hi)
        (fun row hrow => hfits row (List.mem_of_mem_drop hrow)) hshort
      have hbins : Packing.bins (rowSize t) BULK_IMPORT_FRAGMENT_SIZE rows = packed 0 rows ::
          Packing.bins (rowSize t) BULK_IMPORT_FRAGMENT_SIZE (rows.drop (packed 0 rows).length) :=
        Packing.bins_eq (rowSize t) BULK_IMPORT_FRAGMENT_SIZE hne hfits
      have hstep := @sendFrom_succ t rows buffer i mask hdata hi hbuffer hne
      simp only at hrest ⊢
      rw [hbins]
      cases hsmall : smallNullBuffer mask i (packed 0 rows).length with
      | none =>
        refine .inr ⟨?_, ?_⟩
        · intro fuel
          cases fuel with
          | zero => simp [sendFrom]
          | succ fuel => simp [hstep, hsmall]
        · rintro (rfl | hreach)
          · simp [smallNullBuffer] at hsmall
          · cases hm : mask with
            | none => simp [hm, smallNullBuffer] at hsmall
            | some m =>
              have hlen := hmask m hm
              have hle := hreach.1
              have hpos' : (packed 0 rows).length + 8 - 1 ≥ 8 := by omega
              rw [hm] at hsmall
              simp only [smallNullBuffer] at hsmall
              rw [if_neg (by omega), if_pos (by omega)] at hsmall
              cases hsmall
      | some small =>
        have hiff : (mask = none ∨ MaskReaches (rowSize t) maskSize i (packed 0 rows ::
              Packing.bins (rowSize t) BULK_IMPORT_FRAGMENT_SIZE (rows.drop (packed 0 rows).length))) ↔
            (mask = none ∨ MaskReaches (rowSize t) maskSize (i + Packing.total (rowSize t) (packed 0 rows))
              (Packing.bins (rowSize t) BULK_IMPORT_FRAGMENT_SIZE (rows.drop (packed 0 rows).length))) := by
          cases hm : mask with
          | none => simp
          | some m =>
            have hlen := hmask m hm
            rw [hm] at hsmall
            simp only [smallNullBuffer] at hsmall
            rw [if_neg (by omega)] at hsmall
            split_ifs at hsmall with hle
            rw [hlen] at hle
            simp only [reduceCtorEq, false_or, MaskReaches]
            exact and_iff_right hle
        rw [hiff]
        rcases hrest with ⟨hsent, hok⟩ | ⟨hnever, hno⟩
        · refine .inl ⟨?_, hok⟩
          rw [hstep, hsmall]
          simp only [hsent, List.map_cons]
        · refine .inr ⟨?_, hno⟩
          intro fuel
          cases fuel with
          | zero => simp [sendFrom]
          | succ fuel =>
            rw [hstep, hsmall]
            exact hnever fuel

/-! ## The columns that are sent as they should -/

theorem wellCut_bins (c : Column) (hfits : ∀ row ∈ c.rows, rowSize c.columnType row ≤ BULK_IMPORT_FRAGMENT_SIZE) :
    WellCut c ((Packing.bins (rowSize c.columnType) BULK_IMPORT_FRAGMENT_SIZE c.rows).map fun bin =>
      ⟨bin.length, bin.flatMap (encode c.columnType)⟩) := by
  set bins := Packing.bins (rowSize c.columnType) BULK_IMPORT_FRAGMENT_SIZE c.rows with hbins
  have hflatten : bins.flatten = c.rows := Packing.bins_flatten _ _ _
  have hlimit : ∀ bin ∈ bins, (bin.flatMap (encode c.columnType)).length ≤ BULK_IMPORT_FRAGMENT_SIZE := by
    intro bin hbin
    rw [length_flatMap_encode]
    exact Packing.bins_fit _ _ _ hfits bin hbin
  refine ⟨?_, ?_, ?_, bins, hflatten, rfl⟩
  · have hbuffer : dataBuffer c = (bins.map fun bin => bin.flatMap (encode c.columnType)).flatten := by
      rw [dataBuffer, ← hflatten, List.flatMap_def, List.map_flatten, List.flatten_flatten, List.map_map]
      rfl
    rw [hbuffer, List.length_flatten, List.map_map, List.map_map]
    rfl
  · intro sent hsent
    obtain ⟨bin, hbin, rfl⟩ := List.mem_map.1 hsent
    obtain ⟨row, others, rfl⟩ := List.exists_cons_of_ne_nil (Packing.bins_ne_nil _ _ hfits bin hbin)
    have hpos := rowSize_pos row
    refine List.ne_nil_of_length_pos ?_
    change 0 < ((row :: others).flatMap (encode c.columnType)).length
    rw [length_flatMap_encode, Packing.total_cons]
    omega
  · intro sent hsent
    obtain ⟨bin, hbin, rfl⟩ := List.mem_map.1 hsent
    exact hlimit bin hbin

theorem respects_iff_returned (c : Column) (hbuffer : (dataBuffer c).length ≤ MAX_ARRAY) :
    Respects c ↔ ∃ fuel sent, sendFrom c.columnType (dataBuffer c) (nullMask c.rows) fuel 0 = (sent, .returned) ∧
      WellCut c sent := by
  unfold Respects bulkImport
  simp only [if_neg (Nat.not_lt.2 hbuffer)]
  refine or_iff_right ?_
  rintro ⟨fuel, hthrown⟩
  exact sendFrom_ne_thrown rfl (Nat.zero_le _) hbuffer fuel hthrown

/-- a column with an element larger than a fragment -/
theorem not_respects_of_large (c : Column) (hbuffer : (dataBuffer c).length ≤ MAX_ARRAY)
    {row : Option (Payload c.columnType)} (hrow : row ∈ c.rows)
    (hlarge : BULK_IMPORT_FRAGMENT_SIZE < rowSize c.columnType row) : ¬ Respects c := by
  rw [respects_iff_returned c hbuffer]
  rintro ⟨fuel, sent, hreturned, -⟩
  exact not_returned_of_large rfl (Nat.zero_le _) hbuffer hrow hlarge fuel (by rw [hreturned])

theorem respects_iff (c : Column) : Respects c ↔ Sendable c := by
  have hlength : (dataBuffer c).length = Packing.total (rowSize c.columnType) c.rows := length_flatMap_encode c.rows
  unfold Sendable
  rw [← hlength]
  by_cases hbuffer : MAX_ARRAY < (dataBuffer c).length
  · refine iff_of_true (.inl ⟨0, ?_⟩) (.inl hbuffer)
    rw [bulkImport, if_pos hbuffer]
  · rw [or_iff_right hbuffer]
    rw [Nat.not_lt] at hbuffer
    by_cases hfits : ∀ row ∈ c.rows, rowSize c.columnType row ≤ BULK_IMPORT_FRAGMENT_SIZE
    · obtain ⟨hnone, hsome⟩ := nullMask_spec c.rows
      rw [and_iff_right hfits, ← hnone, respects_iff_returned c hbuffer]
      have hrun := @sendFrom_returned c.columnType c.rows (dataBuffer c) 0 (nullMask c.rows) rfl (Nat.zero_le _)
        hbuffer hfits (c.rows.length + 1) (Nat.lt_succ_self _) _ fun m hm => (hsome m hm).1
      rcases hrun with ⟨hreturned, hok⟩ | ⟨hnever, hno⟩
      · exact iff_of_true ⟨_, _, hreturned, wellCut_bins c hfits⟩ hok
      · refine iff_of_false ?_ hno
        rintro ⟨fuel, sent, hreturned, -⟩
        exact hnever fuel (by rw [hreturned])
    · refine iff_of_false ?_ fun h => hfits h.1
      push Not at hfits
      obtain ⟨row, hrow, hlarge⟩ := hfits
      exact not_respects_of_large c hbuffer hrow hlarge

/-- a text of as many characters as a fragment has bytes -/
def largeText : Column :=
  ⟨.columnString, [some ⟨List.replicate BULK_IMPORT_FRAGMENT_SIZE 97, fun h => absurd (.inl rfl) h⟩]⟩

theorem rowSize_largeText : ∀ row ∈ largeText.rows, rowSize .columnString row = 4 + BULK_IMPORT_FRAGMENT_SIZE := by
  intro row hrow
  obtain rfl := List.mem_singleton.1 hrow
  have ht : HasLength .columnString := .inl rfl
  rw [rowSize, encode, if_pos ht]
  simp

theorem not_respects : ¬ ∀ c : Column, Respects c := by
  intro hall
  have hsize := rowSize_largeText
  have hlength : (dataBuffer largeText).length = 4 + BULK_IMPORT_FRAGMENT_SIZE := by
    have htotal : (dataBuffer largeText).length = Packing.total (rowSize .columnString) largeText.rows :=
      length_flatMap_encode largeText.rows
    exact htotal.trans (Packing.total_const (rowSize .columnString) hsize)
  refine not_respects_of_large largeText ?_ List.mem_cons_self ?_ (hall largeText)
  · rw [hlength]
    decide
  · have hlarge := hsize _ List.mem_cons_self
    have hlt : BULK_IMPORT_FRAGMENT_SIZE < 4 + BULK_IMPORT_FRAGMENT_SIZE := by decide
    exact hlarge ▸ hlt

end QikkDB.FragmentLoop

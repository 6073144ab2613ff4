/-
LIMIT and OFFSET on the merged response (GpuSqlParser/GpuSqlCustomParser.cpp, `TrimResponseMessage`, `TrimPayload`,
`TrimNullMaskPayload`).

The rows in front of the offset are erased from a payload, then those behind the limit; the mask is shifted down by the
offset and its words behind the limit are erased. Both clamp offset and limit by the number of rows the payload had.

- `trimRows_eq`: the rows that are left.
- `trimNullMaskPayload_eq`: the bits that are left.
- `trim_keeps_rows_and_flags`: every payload of a response keeps its rows and null flags together.
-/
import Mathlib.Tactic
import QikkDB.Engine.MergePayloads
import QikkDB.Lib.Traverse

namespace QikkDB.TrimResponse

open NullValues MergePayloads Traverse

/-! ## Model -/

/-- std::clamp -/
def clamp (v lo hi : ℤ) : ℤ := if v < lo then lo else if hi < v then hi else v

def clampedOffset (offset payloadSize : ℤ) : ℤ := clamp offset 0 payloadSize

def clampedLimit (limit offset payloadSize : ℤ) : ℤ := clamp limit 0 (payloadSize - clampedOffset offset payloadSize)

section Model

variable {V : NumberCase → Type} {W : OtherCase → Type}

/-- the two calls of erase for the rows of one case -/
def trimRows {α : Type} (data : List α) (limit offset : ℤ) : List α :=
  (data.drop (clampedOffset offset data.length).toNat).take (clampedLimit limit offset data.length).toNat

/-- TrimPayload, with the number of rows that the payload had -/
def trimPayload (limit offset : ℤ) : Payload V W → Payload V W × ℤ
  | .notSet => (.notSet, 0)
  | .number c data => (.number c (trimRows data limit offset), data.length)
  | .other c data => (.other c (trimRows data limit offset), data.length)

/-- TrimNullMaskPayload; erase must not begin behind the end of the words -/
def trimNullMaskPayload (nullMask : Mask) (limit offset payloadSize : ℤ) : Option Mask :=
  let shifted := shiftNullMaskLeft nullMask (clampedOffset offset payloadSize)
  let words := getNullBitMaskSize (clampedLimit limit offset payloadSize).toNat
  if words ≤ shifted.length then some (shifted.take words) else none

/-- the mask of one key, which is trimmed if the key has a payload -/
def trimMask (payloads : List (String × Payload V W)) (limit offset : ℤ) (key : String) (mask : Mask) : Option Mask :=
  match payloads.lookup key with
  | none => some mask
  | some payload => trimNullMaskPayload mask limit offset (trimPayload limit offset payload).2

/-- TrimResponseMessage; each key changes its own two entries only -/
def trimResponseMessage (m : Message V W) (limit offset : ℤ) : Option (Message V W) := do
  let nullBitMasks ← m.nullBitMasks.mapM fun e => (trimMask m.payloads limit offset e.1 e.2).map fun mask => (e.1, mask)
  some ⟨m.payloads.map fun e => (e.1, (trimPayload limit offset e.2).1), nullBitMasks⟩

/-- the payload with the rows from `offset` on, at most `limit` of them -/
def Payload.window (limit offset : ℕ) : Payload V W → Payload V W
  | .notSet => .notSet
  | .number c data => .number c ((data.drop offset).take limit)
  | .other c data => .other c ((data.drop offset).take limit)

end Model

/-! ## Rows -/

theorem clampedOffset_eq (offset : ℤ) (n : ℕ) : (clampedOffset offset n).toNat = min (max offset 0).toNat n := by
  unfold clampedOffset clamp
  split_ifs <;> omega

theorem clampedLimit_eq (limit offset : ℤ) (n : ℕ) :
    (clampedLimit limit offset n).toNat = min (max limit 0).toNat (n - (max offset 0).toNat) := by
  have hoffset := clampedOffset_eq offset n
  have hnonneg : 0 ≤ clampedOffset offset n := by
    unfold clampedOffset clamp
    split_ifs <;> omega
  unfold clampedLimit clamp
  split_ifs <;> omega

/-- The rows that are left, also for a negative or too large offset or limit. -/
theorem trimRows_eq {α : Type} (data : List α) (limit offset : ℤ) :
    trimRows data limit offset = (data.drop (max offset 0).toNat).take (max limit 0).toNat := by
  have hdrop : data.drop (clampedOffset offset data.length).toNat = data.drop (max offset 0).toNat := by
    rw [clampedOffset_eq, List.drop_eq_drop_iff]
    omega
  rw [trimRows, hdrop, clampedLimit_eq, List.take_eq_take_iff, List.length_drop]
  omega

section Payloads

variable {V : NumberCase → Type} {W : OtherCase → Type}

theorem trimPayload_eq (limit offset : ℤ) (payload : Payload V W) :
    trimPayload limit offset payload =
      (Payload.window (max limit 0).toNat (max offset 0).toNat payload, (payload.size : ℤ)) := by
  cases payload with
  | notSet => rfl
  | number c data => rw [trimPayload, trimRows_eq]; rfl
  | other c data => rw [trimPayload, trimRows_eq]; rfl

theorem size_window (limit offset : ℕ) (payload : Payload V W) :
    (Payload.window limit offset payload).size = min limit (payload.size - offset) := by
  cases payload with
  | notSet => simp [Payload.window, Payload.size]
  | number c data => simp [Payload.window, Payload.size]
  | other c data => simp [Payload.window, Payload.size]

end Payloads

/-! ## Null flags -/

/-- the words and bits that are left of the mask of `n` rows -/
theorem trimNullMaskPayload_eq {nullMask : Mask} {n : ℕ} (h : getNullBitMaskSize n ≤ nullMask.length) (limit offset : ℤ) :
    ∃ mask, trimNullMaskPayload nullMask limit offset n = some mask ∧
      mask.length = getNullBitMaskSize (min (max limit 0).toNat (n - (max offset 0).toNat)) ∧
      ∀ k, k < min (max limit 0).toNat (n - (max offset 0).toNat) →
        getBit mask k = getBit nullMask ((max offset 0).toNat + k) := by
  set count := min (max limit 0).toNat (n - (max offset 0).toNat) with hcount
  have hwords : getNullBitMaskSize count ≤ (shiftNullMaskLeft nullMask (clampedOffset offset n)).length := by
    rw [length_shiftNullMaskLeft]
    exact (getNullBitMaskSize_le_of_le (by omega)).trans h
  refine ⟨(shiftNullMaskLeft nullMask (clampedOffset offset n)).take (getNullBitMaskSize count), ?_, ?_, ?_⟩
  · simp only [trimNullMaskPayload, clampedLimit_eq]
    exact if_pos hwords
  · rw [List.length_take, Nat.min_eq_left hwords]
  · intro k hk
    have hnonneg : clampedOffset offset n = ((max offset 0).toNat : ℕ) := by
      have := clampedOffset_eq offset n
      unfold clampedOffset clamp at this ⊢
      split_ifs at this ⊢ <;> omega
    rw [getBit_take (hk.trans_le (le_getNullBitMaskSize count)), hnonneg, getBit_shiftNullMaskLeft, Nat.add_comm]

section Messages

variable {V : NumberCase → Type} {W : OtherCase → Type}

theorem lookup_map {β γ : Type} (f : String → β → γ) (key : String) (l : List (String × β)) :
    (l.map fun e => (e.1, f e.1 e.2)).lookup key = (l.lookup key).map (f key) := by
  induction l with
  | nil => rfl
  | cons e l ih =>
    rw [List.map_cons, List.lookup_cons, List.lookup_cons]
    cases hk : key == e.1 with
    | true =>
      obtain rfl : key = e.1 := by simpa using hk
      rfl
    | false => exact ih

/-- **Trimming keeps rows and null flags together.** -/
theorem trim_keeps_rows_and_flags (m : Message V W) (limit offset : ℤ)
    (hmasks : ∀ e ∈ m.nullBitMasks, ∀ payload ∈ m.payloads.lookup e.1, getNullBitMaskSize payload.size ≤ e.2.length) :
    ∃ m', trimResponseMessage m limit offset = some m' ∧ ∀ key,
      m'.payloads.lookup key =
        (m.payloads.lookup key).map (Payload.window (max limit 0).toNat (max offset 0).toNat) ∧
      ∀ payload mask, m.payloads.lookup key = some payload → m.nullBitMasks.lookup key = some mask →
        ∃ mask', m'.nullBitMasks.lookup key = some mask' ∧
          mask'.length =
            getNullBitMaskSize (Payload.window (max limit 0).toNat (max offset 0).toNat payload).size ∧
          ∀ k, k < (Payload.window (max limit 0).toNat (max offset 0).toNat payload).size →
            getBit mask' k = getBit mask ((max offset 0).toNat + k) := by
  -- no mask is too short for its rows
  have hentry : ∀ e ∈ m.nullBitMasks, (trimMask m.payloads limit offset e.1 e.2).map (fun mask => (e.1, mask)) =
      some (e.1, (trimMask m.payloads limit offset e.1 e.2).getD []) := by
    intro e he
    unfold trimMask
    cases hpayload : m.payloads.lookup e.1 with
    | none => rfl
    | some payload =>
      obtain ⟨mask, hmask, -⟩ := trimNullMaskPayload_eq (hmasks e he payload hpayload) limit offset
      simp only [trimPayload_eq, hmask, Option.map_some, Option.getD_some]
  have htrim : trimResponseMessage m limit offset =
      some ⟨m.payloads.map fun e => (e.1, (trimPayload limit offset e.2).1),
        m.nullBitMasks.map fun e => (e.1, (trimMask m.payloads limit offset e.1 e.2).getD [])⟩ := by
    rw [trimResponseMessage, mapM_some hentry]
    rfl
  refine ⟨_, htrim, fun key => ⟨?_, ?_⟩⟩
  · rw [lookup_map (fun _ payload => (trimPayload limit offset payload).1)]
    congr 1
    funext payload
    rw [trimPayload_eq]
  · intro payload mask hpayload hmask
    have hmem : (key, mask) ∈ m.nullBitMasks := by
      obtain ⟨before, behind, hsplit, -⟩ := List.lookup_eq_some_iff.1 hmask
      rw [hsplit]
      simp
    obtain ⟨mask', hmask', hlen, hbits⟩ := trimNullMaskPayload_eq (hmasks (key, mask) hmem payload hpayload) limit offset
    refine ⟨mask', ?_, by rw [size_window, hlen], fun k hk => hbits k (by rwa [size_window] at hk)⟩
    rw [lookup_map (fun key mask => (trimMask m.payloads limit offset key mask).getD []), hmask, Option.map_some]
    simp only [trimMask, hpayload, trimPayload_eq, hmask', Option.getD_some]

/-- the second of three rows -/
theorem trim_keeps_rows_and_flags_middle :
    ∃ m', trimResponseMessage
        (⟨[("a", .number .int [5, 6, 7])], [("a", [0b110#64])]⟩ : Message (fun _ => ℤ) (fun _ => String)) 1 1 = some m' ∧
      ∃ mask', m'.nullBitMasks.lookup "a" = some mask' ∧ mask'.length = 1 ∧ getBit mask' 0 = true := by
  obtain ⟨m', hm', h⟩ := trim_keeps_rows_and_flags
    (⟨[("a", .number .int [5, 6, 7])], [("a", [0b110#64])]⟩ : Message (fun _ => ℤ) (fun _ => String)) 1 1 (by
      intro e he payload hpayload
      obtain rfl := List.mem_singleton.1 he
      obtain rfl := Option.some.inj hpayload
      decide)
  obtain ⟨mask', hmask', hlen, hbits⟩ := (h "a").2 _ _ rfl rfl
  exact ⟨m', hm', mask', hmask', hlen, hbits 0 (by decide)⟩

end Messages

end QikkDB.TrimResponse

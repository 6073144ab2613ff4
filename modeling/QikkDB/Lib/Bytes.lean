/-
Binary files as byte lists: fixed-width little-endian numbers, sequential reads and in-place writes.

- `decodeLE_encodeLE`: reading back w bytes gives the number modulo 256^w.
- `readLE_encodeLE`: a sequential read consumes exactly what was written.
- `readMany_encode`: the same for a run of items of one width.
- `overwrite_append`: writing at the end of a known prefix replaces what stands behind it.
-/
import Mathlib.Tactic

namespace Bytes

/-! ## Little-endian numbers -/

def encodeLE : ℕ → ℕ → List UInt8
  | 0, _ => []
  | w + 1, n => UInt8.ofNat n :: encodeLE w (n / 256)

def decodeLE (bytes : List UInt8) : ℕ := bytes.foldr (fun b n => b.toNat + 256 * n) 0

@[simp] theorem length_encodeLE (w n : ℕ) : (encodeLE w n).length = w := by
  induction w generalizing n with
  | zero => rfl
  | succ w ih => simp [encodeLE, ih]

theorem decodeLE_encodeLE (w n : ℕ) : decodeLE (encodeLE w n) = n % 256 ^ w := by
  induction w generalizing n with
  | zero => simp [encodeLE, decodeLE, Nat.mod_one]
  | succ w ih =>
    have hstep : decodeLE (encodeLE (w + 1) n) = n % 256 + 256 * decodeLE (encodeLE w (n / 256)) := by
      simp [encodeLE, decodeLE]
    rw [hstep, ih, pow_succ', Nat.mod_mul]

theorem decodeLE_encodeLE_of_lt {w n : ℕ} (h : n < 256 ^ w) : decodeLE (encodeLE w n) = n := by
  rw [decodeLE_encodeLE, Nat.mod_eq_of_lt h]

/-- only the number modulo 256^w is written -/
theorem encodeLE_mod (w n : ℕ) : encodeLE w (n % 256 ^ w) = encodeLE w n := by
  induction w generalizing n with
  | zero => rfl
  | succ w ih =>
    have hlow : UInt8.ofNat (n % 256 ^ (w + 1)) = UInt8.ofNat n := by
      apply UInt8.toNat.inj
      rw [UInt8.toNat_ofNat', UInt8.toNat_ofNat', pow_succ']
      exact Nat.mod_mul_right_mod n 256 (256 ^ w)
    have hhigh : n % 256 ^ (w + 1) / 256 = n / 256 % 256 ^ w := by
      rw [pow_succ', Nat.mod_mul_right_div_self]
    simp only [encodeLE, hlow, hhigh, ih]

/-! ## Sequential reads -/

/-- read n bytes, `none` past the end -/
def readBytes (n : ℕ) (file : List UInt8) : Option (List UInt8 × List UInt8) :=
  if file.length < n then none else some (file.take n, file.drop n)

def readLE (w : ℕ) (file : List UInt8) : Option (ℕ × List UInt8) :=
  (readBytes w file).map fun r => (decodeLE r.1, r.2)

/-- read `count` items of w bytes each -/
def readMany {α : Type*} (w : ℕ) (decode : List UInt8 → α) : ℕ → List UInt8 → Option (List α × List UInt8)
  | 0, file => some ([], file)
  | count + 1, file =>
    (readBytes w file).bind fun r => (readMany w decode count r.2).map fun rs => (decode r.1 :: rs.1, rs.2)

theorem readBytes_append {n : ℕ} (bytes rest : List UInt8) (h : bytes.length = n) :
    readBytes n (bytes ++ rest) = some (bytes, rest) := by
  simp [readBytes, ← h]

theorem readLE_encodeLE (w n : ℕ) (rest : List UInt8) :
    readLE w (encodeLE w n ++ rest) = some (n % 256 ^ w, rest) := by
  simp [readLE, readBytes_append _ _ (length_encodeLE w n), decodeLE_encodeLE]

/-- items of one width are read one after the other -/
theorem readMany_flatMap {α β : Type*} {w : ℕ} {encode : α → List UInt8} (decode : List UInt8 → β)
    (hlen : ∀ a, (encode a).length = w) (l : List α) (rest : List UInt8) :
    readMany w decode l.length (l.flatMap encode ++ rest) = some (l.map fun a => decode (encode a), rest) := by
  induction l with
  | nil => simp [readMany]
  | cons a l ih =>
    simp only [List.flatMap_cons, List.append_assoc, List.length_cons, readMany]
    rw [readBytes_append _ _ (hlen a)]
    simp [ih]

theorem readMany_encode {α : Type*} {w : ℕ} {encode : α → List UInt8} {decode : List UInt8 → α}
    (hlen : ∀ a, (encode a).length = w) (hdec : ∀ a, decode (encode a) = a) (l : List α) (rest : List UInt8) :
    readMany w decode l.length (l.flatMap encode ++ rest) = some (l, rest) := by
  rw [readMany_flatMap decode hlen]
  simp [hdec]

theorem length_readMany {α : Type*} {w : ℕ} {decode : List UInt8 → α} {count : ℕ} {file : List UInt8}
    {r : List α × List UInt8} (h : readMany w decode count file = some r) : r.1.length = count := by
  induction count generalizing file r with
  | zero =>
    obtain rfl := Option.some.inj h
    rfl
  | succ count ih =>
    obtain ⟨r₁, -, h⟩ := Option.bind_eq_some_iff.1 h
    obtain ⟨r₂, h₂, rfl⟩ := Option.map_eq_some_iff.1 h
    simp [ih h₂]

theorem readBytes_short {n : ℕ} {file : List UInt8} (h : file.length < n) : readBytes n file = none := by
  simp [readBytes, h]

theorem readLE_short {w : ℕ} {file : List UInt8} (h : file.length < w) : readLE w file = none := by
  simp [readLE, readBytes_short h]

/-! ## Entries of a table of fixed width -/

/-- the k-th entry of w bytes -/
def entry (w k : ℕ) (file : List UInt8) : List UInt8 := (file.drop (k * w)).take w

theorem entry_flatMap {α : Type*} {w : ℕ} (encode : α → List UInt8) (hlen : ∀ a, (encode a).length = w) (l : List α)
    (rest : List UInt8) (k : ℕ) (hk : k < l.length) :
    entry w k (l.flatMap encode ++ rest) = encode (l.get ⟨k, hk⟩) := by
  induction l generalizing k with
  | nil => simp at hk
  | cons a l ih =>
    cases k with
    | zero => simp [entry, ← hlen a]
    | succ k =>
      have hk' : k < l.length := by simpa using hk
      have hskip : (k + 1) * w = (encode a).length + k * w := by
        rw [hlen a]
        ring
      have hdrop : (encode a ++ (l.flatMap encode ++ rest)).drop ((encode a).length + k * w) =
          (l.flatMap encode ++ rest).drop (k * w) := by
        rw [← List.drop_drop, List.drop_left]
      simp only [entry, List.flatMap_cons, List.append_assoc, hskip, hdrop, List.get_cons_succ]
      exact ih k hk'

/-! ## Writes -/

/-- write `bytes` at `pos`, extending the file where it ends; a gap reads as zeros -/
def overwrite (file : List UInt8) (pos : ℕ) (bytes : List UInt8) : List UInt8 :=
  file.take pos ++ List.replicate (pos - file.length) 0 ++ bytes ++ file.drop (pos + bytes.length)

theorem overwrite_append (pre old new : List UInt8) (h : old.length ≤ new.length) :
    overwrite (pre ++ old) pre.length new = pre ++ new := by
  simp [overwrite, h]

theorem overwrite_end (file new : List UInt8) : overwrite file file.length new = file ++ new := by
  simp [overwrite]

end Bytes

/-
The on-disk format of string columns (Database.cpp, WriteColumn and LoadColumn for COLUMN_STRING): a .data file of one
record per block (index, group id, null mask, row count), a .fragdata file of fixed-size fragments that hold the rows,
and an .adrs file that gives, for each fragment in order, the index of its block.

The writer notes a fragment's address only when the row behind its first row comes, so a last row that opens a fragment
leaves it without an address: its string is lost and the fragments of every later block are looked up one place early.

- `writeRows_ok`: the fragments of a block are its rows, packed next-fit, and one address is missing when the last row
  opened a fragment.
- `readEntries_fragment`: the reader takes back the rows of one fragment.
- `readStrings_block`: the rows that the reader finds for a block, the blocks before it being in order.
- `load_undoes_save_iff`: load undoes save exactly when no block ends that way and the counters suffice.
-/
import Mathlib.Tactic
import QikkDB.Lib.Bytes
import QikkDB.Lib.Packing
import QikkDB.Core.Column
import QikkDB.Storage.Record

namespace QikkDB.StringFormat

open NullValues Bytes Storage Packing

/-- FRAGMENT_SIZE_BYTES -/
def FRAGMENT_SIZE_BYTES : ℕ := 1048576

/-- the three files of a string column -/
structure StringFiles where
  data : List UInt8
  adrs : List UInt8
  fragdata : List UInt8
deriving DecidableEq, Repr

variable (fragmentSize : ℕ)

/-! ## Writing -/

/-- what a row takes of a fragment: its length, its characters, the terminating NUL -/
def entryLength (s : Str) : ℕ := s.length + 1 + 4

def entryBytes (s : Str) : List UInt8 := encodeLE 4 (s.length + 1) ++ (s ++ [0])

/-- the free space of a fragment: a negative length and stars, or only stars where the length has no room -/
def padding (free : ℕ) : List UInt8 :=
  if 4 ≤ free then encodeLE 4 ((4 - free : ℤ) % 2 ^ 32).toNat ++ List.replicate (free - 4) 42
  else List.replicate free 42

/-- the padding behind the last row; past the end of the fragment the string constructor gets a negative count -/
def lastPadding (isLast : Bool) (used : ℕ) : Except Fault (List UInt8) :=
  if !isLast then .ok []
  else if fragmentSize < used then .error (.lengthError "basic_string::_M_create")
  else .ok (padding (fragmentSize - used))

/-- the loop over the rows of a block: what it adds to the address file and to the fragment file. `used` is
dataByteSize; entryByteLength is an int32_t. -/
def writeRows (index : ℕ) : ℕ → Bool → List Str → Except Fault (List UInt8 × List UInt8)
  | _, _, [] => .ok ([], [])
  | used, newFragment, s :: rest =>
    if 2 ^ 31 ≤ s.length + 1 then .error .undefined
    else
      let address := if newFragment then encodeLE 4 index else []
      let fits : Bool := used + entryLength s ≤ fragmentSize
      let bytes :=
        if fits then entryBytes s
        else (if used < fragmentSize then padding (fragmentSize - used) else []) ++ entryBytes s
      let used := if fits then used + entryLength s else entryLength s
      do
        let last ← lastPadding fragmentSize rest.isEmpty used
        let more ← writeRows index used (!fits) rest
        .ok (address ++ more.1, bytes ++ (last ++ more.2))

/-- one record of the .data file -/
def stringRecord (mask : List UInt8) (index : ℕ) (b : Block Str) : List UInt8 :=
  recordHead mask index ++ encodeLE 8 b.size

/-- the loop over the blocks; it stops once the next index would be the reserved one -/
def writeBlocks (isNullable : Bool) (junk : ℕ → ℕ → UInt8) : ℕ → List (Block Str) → Except Fault StringFiles
  | _, [] => .ok ⟨[], [], []⟩
  | index, b :: bs => do
    let rows ← writeRows fragmentSize index 0 true b.rows
    let head := stringRecord (maskBytes isNullable (junk index) b) index b
    if index + 1 = UINT32_MAX then .ok ⟨head, rows.1, rows.2⟩
    else do
      let rest ← writeBlocks isNullable junk (index + 1) bs
      .ok ⟨head ++ rest.data, rows.1 ++ rest.adrs, rows.2 ++ rest.fragdata⟩

/-- WriteColumn: the files it creates -/
def writeColumn (junk : ℕ → ℕ → UInt8) (c : Column Str) : Except Fault StringFiles :=
  writeBlocks fragmentSize c.isNullable junk 0 c.getBlocksList

/-! ## Reading -/

/-- fragBlockIndices: the 4-byte entries of the address file -/
def fragBlockIndices (adrs : List UInt8) : List ℕ :=
  (List.range (adrs.length / 4)).map fun k => decodeLE (entry 4 k adrs)

/-- a string up to its NUL -/
def cString (bytes : List UInt8) : Except Fault Str :=
  if 0 ∈ bytes then .ok (bytes.takeWhile (· ≠ 0)) else .error .undefined

/-- one entry of a fragment at the read position: its string, if it is in use, the bytes read so far and the file
behind it; readBytes is an int32_t -/
def readEntry (readSoFar : ℕ) (file : List UInt8) : Except Fault (List Str × ℕ × List UInt8) :=
  match readLE 4 file with
  | none => .error .undefined
  | some (length, file) =>
    let entryByteLength := (IntN.wrap 32 length).val
    let readSoFar := readSoFar + 4 + entryByteLength.natAbs
    if 2 ^ 31 ≤ readSoFar then .error .undefined
    else if 0 < entryByteLength then
      match readBytes entryByteLength.natAbs file with
      | none => .error .undefined
      | some (bytes, file) => do
        let s ← cString bytes
        .ok ([s], readSoFar, file)
    else .ok ([], readSoFar, file.drop entryByteLength.natAbs)

/-- the loop over the entries of a fragment, `file` from the read position on -/
def readEntries : ℕ → ℕ → List UInt8 → Except Fault (List Str)
  | 0, _, _ => .error .undefined
  | fuel + 1, readSoFar, file =>
    if fragmentSize ≤ readSoFar ∨ fragmentSize < readSoFar + 4 then .ok []
    else do
      let entry ← readEntry readSoFar file
      let more ← readEntries fuel entry.2.1 entry.2.2
      .ok (entry.1 ++ more)

/-- one fragment, whose entries take four bytes at least -/
def readFragment (fragdata : List UInt8) (fragIdx : ℕ) : Except Fault (List Str) :=
  readEntries fragmentSize (fragmentSize + 1) 0 (fragdata.drop (fragIdx * fragmentSize))

/-- one fragment if it is of the block in question -/
def readOwnFragment (fragdata : List UInt8) (index k fragIdx : ℕ) : Except Fault (List Str) :=
  if index = k then readFragment fragmentSize fragdata fragIdx else .ok []

/-- the loop over the fragments, from number `fragIdx` on -/
def readFragments (fragdata : List UInt8) (index : ℕ) : ℕ → List ℕ → Except Fault (List Str)
  | _, [] => .ok []
  | fragIdx, k :: ks => do
    let here ← readOwnFragment fragmentSize fragdata index k fragIdx
    let more ← readFragments fragdata index (fragIdx + 1) ks
    .ok (here ++ more)

/-- the strings of a block; the loop variable is an int32_t -/
def readStrings (indices : List ℕ) (fragdata : List UInt8) (index : ℕ) : Except Fault (List Str) :=
  if 2 ^ 31 ≤ indices.length then .error .undefined
  else readFragments fragmentSize fragdata index 0 indices

/-- one character per byte -/
def showStr (s : Str) : String := String.ofList (s.map fun c => Char.ofNat c.toNat)

/-- enter one record into the column -/
def enterRecord (path : String) (c : Column Str) (fill : ℕ → BitVec 64) (head : ℕ × ℤ × List UInt8)
    (dataString : List Str) : Except Fault (Column Str) :=
  enterRows path showStr c fill head dataString

/-- the loop over the records: it ends where a record's head runs past the end of the file. The row count that follows
is read and not used. -/
def loadBlocks (path : String) (fill : ℕ → ℕ → BitVec 64) (indices : List ℕ) (fragdata : List UInt8) :
    ℕ → ℕ → Column Str → List UInt8 → Except Fault (Column Str)
  | 0, _, _, _ => .error .undefined
  | fuel + 1, k, c, file =>
    match readHead file with
    | none => .ok c
    | some (head, file) => do
      let dataString ← readStrings fragmentSize indices fragdata head.1
      let c ← enterRecord path c (fill k) head dataString
      loadBlocks path fill indices fragdata fuel (k + 1) c (file.drop 8)

/-- LoadColumn -/
def loadColumn (path : String) (fill : ℕ → ℕ → BitVec 64) (name : String) (blockSize : ℕ) (isNullable isUnique : Bool)
    (files : StringFiles) : Except Fault (Column Str) := do
  let c ← created name blockSize isNullable isUnique
  if files.data.isEmpty then .ok c
  else
    loadBlocks fragmentSize path fill (fragBlockIndices files.adrs) files.fragdata (files.data.length + 1) 0 c files.data

/-! ## The fragments of a block -/

/-- one fragment: its rows and the padding up to its size -/
def fragment (bin : List Str) : List UInt8 :=
  bin.flatMap entryBytes ++ padding (fragmentSize - total entryLength bin)

/-- how many addresses the writer notes for a block -/
def addressCount (rows : List Str) : ℕ :=
  (bins entryLength fragmentSize rows).length - (lastAlone entryLength fragmentSize rows).toNat

@[simp] theorem length_padding (free : ℕ) : (padding free).length = free := by
  unfold padding
  split_ifs
  · simp only [List.length_append, length_encodeLE, List.length_replicate]
    omega
  · simp

@[simp] theorem length_entryBytes (s : Str) : (entryBytes s).length = entryLength s := by
  simp [entryBytes, entryLength]
  omega

theorem length_flatMap_entryBytes (bin : List Str) : (bin.flatMap entryBytes).length = total entryLength bin := by
  simp [List.length_flatMap, total]

theorem length_fragment {bin : List Str} (h : total entryLength bin ≤ fragmentSize) :
    (fragment fragmentSize bin).length = fragmentSize := by
  simp only [fragment, List.length_append, length_flatMap_entryBytes, length_padding]
  omega

section Write

variable {fragmentSize}

theorem lastPadding_ok {used : ℕ} (h : used ≤ fragmentSize) :
    lastPadding fragmentSize true used = .ok (padding (fragmentSize - used)) := by
  simp [lastPadding, not_lt.2 h]

/-- the padding of a fragment that is left when a row does not fit -/
theorem padding_of_free (used : ℕ) :
    (if used < fragmentSize then padding (fragmentSize - used) else []) = padding (fragmentSize - used) := by
  split_ifs with h
  · rfl
  · have : fragmentSize - used = 0 := by omega
    simp [this, padding]

/-- the addresses of one row and of the rows behind it -/
theorem address_append (newFragment : Bool) (index n : ℕ) :
    (if newFragment then encodeLE 4 index else []) ++ (List.replicate n index).flatMap (encodeLE 4) =
      (List.replicate (newFragment.toNat + n) index).flatMap (encodeLE 4) := by
  cases newFragment <;> simp [Nat.add_comm 1 n, List.replicate_succ]

section Row

variable {index used : ℕ} {newFragment : Bool} {s : Str} {rest : List Str} {last : List UInt8}
  {more : List UInt8 × List UInt8}

/-- a row that fits into the fragment in use -/
theorem writeRows_fits (hlen : s.length + 1 < 2 ^ 31) (hfit : used + entryLength s ≤ fragmentSize)
    (hlast : lastPadding fragmentSize rest.isEmpty (used + entryLength s) = .ok last)
    (hmore : writeRows fragmentSize index (used + entryLength s) false rest = .ok more) :
    writeRows fragmentSize index used newFragment (s :: rest) =
      .ok ((if newFragment then encodeLE 4 index else []) ++ more.1, entryBytes s ++ (last ++ more.2)) := by
  simp only [writeRows, not_le.2 hlen, hfit, decide_true, ↓reduceIte, hlast, Bool.not_true, hmore, bind, Except.bind]

/-- a row that opens a fragment -/
theorem writeRows_opens (hlen : s.length + 1 < 2 ^ 31) (hfit : ¬ used + entryLength s ≤ fragmentSize)
    (hlast : lastPadding fragmentSize rest.isEmpty (entryLength s) = .ok last)
    (hmore : writeRows fragmentSize index (entryLength s) true rest = .ok more) :
    writeRows fragmentSize index used newFragment (s :: rest) =
      .ok ((if newFragment then encodeLE 4 index else []) ++ more.1,
        padding (fragmentSize - used) ++ (entryBytes s ++ (last ++ more.2))) := by
  simp only [writeRows, not_le.2 hlen, hfit, decide_false, Bool.false_eq_true, ↓reduceIte, hlast, Bool.not_false, hmore,
    bind, Except.bind, padding_of_free, List.append_assoc]

end Row

/-- the rows of a block are packed next-fit; the last address is missing when the last row opened a fragment -/
theorem writeRows_ok (index : ℕ) (hsmall : fragmentSize < 2 ^ 31) (rows : List Str) (used : ℕ) (newFragment : Bool)
    (hne : rows ≠ []) (hrows : ∀ s ∈ rows, entryLength s ≤ fragmentSize) :
    writeRows fragmentSize index used newFragment rows =
      .ok ((List.replicate (newFragment.toNat + ((pack entryLength fragmentSize used rows).2.length -
          (endsAlone (pack entryLength fragmentSize used rows).2).toNat)) index).flatMap (encodeLE 4),
        (pack entryLength fragmentSize used rows).1.flatMap entryBytes ++
          (padding (fragmentSize - (used + total entryLength (pack entryLength fragmentSize used rows).1)) ++
            (pack entryLength fragmentSize used rows).2.flatMap (fragment fragmentSize))) := by
  induction rows generalizing used newFragment with
  | nil => exact absurd rfl hne
  | cons s rest ih =>
    have hs : entryLength s ≤ fragmentSize := hrows s (by simp)
    have hlen : s.length + 1 < 2 ^ 31 := by
      unfold entryLength at hs
      omega
    have hrest : ∀ s' ∈ rest, entryLength s' ≤ fragmentSize := fun s' h' => hrows s' (by simp [h'])
    have hnoPadding : rest ≠ [] → ∀ n, lastPadding fragmentSize rest.isEmpty n = .ok [] := by
      intro h n
      simp [lastPadding, h]
    by_cases hfit : used + entryLength s ≤ fragmentSize <;> by_cases hlast : rest = []
    · subst hlast
      have hpad : lastPadding fragmentSize ([] : List Str).isEmpty (used + entryLength s) = _ := lastPadding_ok hfit
      rw [writeRows_fits hlen hfit hpad rfl]
      cases newFragment <;> simp [pack, hfit, endsAlone]
    · rw [writeRows_fits hlen hfit (hnoPadding hlast _) (ih _ false hlast hrest)]
      simp [pack, hfit, address_append, Nat.add_assoc]
    · subst hlast
      have hpad : lastPadding fragmentSize ([] : List Str).isEmpty (entryLength s) = _ := lastPadding_ok hs
      rw [writeRows_opens hlen hfit hpad rfl]
      cases newFragment <;> simp [pack, hfit, endsAlone, fragment]
    · rw [writeRows_opens hlen hfit (hnoPadding hlast _) (ih _ true hlast hrest)]
      -- the new fragment gets its address, since a row follows in it or behind it
      have hflat := pack_flatten entryLength fragmentSize (entryLength s) rest
      set p := pack entryLength fragmentSize (entryLength s) rest with hp
      have halone : endsAlone ((s :: p.1) :: p.2) = endsAlone p.2 := by
        cases hbehind : p.2 with
        | nil =>
          obtain ⟨r, rs, hr⟩ := List.exists_cons_of_ne_nil (hflat ▸ hlast)
          rw [hbehind, List.flatten_nil, List.append_nil] at hr
          simp [hr, endsAlone]
        | cons next behind => exact endsAlone_cons _ _ (by simp)
      have hcount := toNat_endsAlone_le p.2
      have hshift : 1 + (p.2.length - (endsAlone p.2).toNat) = p.2.length + 1 - (endsAlone p.2).toNat := by omega
      simp only [pack, hfit, ↓reduceIte, ← hp, halone, address_append, Bool.toNat_true, hshift, List.length_cons,
        List.flatMap_nil, List.nil_append, total_nil, Nat.add_zero, List.flatMap_cons, fragment, total_cons,
        List.append_assoc]

/-- the rows of a block that starts its first fragment -/
theorem writeRows_block (index : ℕ) (hsmall : fragmentSize < 2 ^ 31) (rows : List Str)
    (hrows : ∀ s ∈ rows, entryLength s ≤ fragmentSize) :
    writeRows fragmentSize index 0 true rows =
      .ok ((List.replicate (addressCount fragmentSize rows) index).flatMap (encodeLE 4),
        (bins entryLength fragmentSize rows).flatMap (fragment fragmentSize)) := by
  cases rows with
  | nil => rfl
  | cons s rest =>
    rw [writeRows_ok index hsmall (s :: rest) 0 true (by simp) hrows]
    have hcount := toNat_endsAlone_le (pack entryLength fragmentSize 0 (s :: rest)).2
    have hadd : true.toNat + ((pack entryLength fragmentSize 0 (s :: rest)).2.length -
        (endsAlone (pack entryLength fragmentSize 0 (s :: rest)).2).toNat) = addressCount fragmentSize (s :: rest) := by
      simp only [addressCount, bins, lastAlone, List.isEmpty_cons, Bool.false_eq_true, ↓reduceIte, List.length_cons,
        Bool.toNat_true]
      omega
    simp only [hadd, bins, List.isEmpty_cons, Bool.false_eq_true, ↓reduceIte, List.flatMap_cons, fragment,
      Nat.zero_add, List.append_assoc]

end Write

/-! ## The written files -/

/-- the .data file of a list of blocks, the first of them number k -/
def dataFile (isNullable : Bool) (junk : ℕ → ℕ → UInt8) : ℕ → List (Block Str) → List UInt8
  | _, [] => []
  | k, b :: bs => stringRecord (maskBytes isNullable (junk k) b) k b ++ dataFile isNullable junk (k + 1) bs

/-- the entries of the .adrs file of a list of blocks, the first of them number k -/
def addresses : ℕ → List (Block Str) → List ℕ
  | _, [] => []
  | k, b :: bs => List.replicate (addressCount fragmentSize b.rows) k ++ addresses (k + 1) bs

/-- the fragments of a list of blocks -/
def fragments (bs : List (Block Str)) : List (List Str) :=
  bs.flatMap fun b => bins entryLength fragmentSize b.rows

/-- the writer stores the blocks up to the reserved index -/
theorem writeBlocks_files {isNullable : Bool} (junk : ℕ → ℕ → UInt8) (hsmall : fragmentSize < 2 ^ 31) (k : ℕ)
    (bs : List (Block Str)) (hrows : ∀ b ∈ bs, ∀ s ∈ b.rows, entryLength s ≤ fragmentSize) (hk : k < UINT32_MAX) :
    writeBlocks fragmentSize isNullable junk k bs =
      .ok ⟨dataFile isNullable junk k (bs.take (UINT32_MAX - k)),
        (addresses fragmentSize k (bs.take (UINT32_MAX - k))).flatMap (encodeLE 4),
        (fragments fragmentSize (bs.take (UINT32_MAX - k))).flatMap (fragment fragmentSize)⟩ := by
  induction bs generalizing k with
  | nil => simp [writeBlocks, dataFile, addresses, fragments]
  | cons b bs ih =>
    obtain ⟨r, hr⟩ : ∃ r, UINT32_MAX - k = r + 1 := ⟨UINT32_MAX - k - 1, by omega⟩
    rw [hr, List.take_succ_cons]
    have hblock := writeRows_block k hsmall b.rows (hrows b (by simp))
    by_cases hlast : k + 1 = UINT32_MAX
    · obtain rfl : r = 0 := by omega
      simp only [writeBlocks, hblock, bind, Except.bind, hlast, ↓reduceIte]
      simp [dataFile, addresses, fragments]
    · obtain rfl : r = UINT32_MAX - (k + 1) := by omega
      have hrest := ih (k + 1) (fun b' h' => hrows b' (by simp [h'])) (by omega)
      simp only [writeBlocks, hblock, bind, Except.bind, hlast, ↓reduceIte, hrest]
      simp [dataFile, addresses, fragments]

theorem addresses_append (k : ℕ) (xs ys : List (Block Str)) :
    addresses fragmentSize k (xs ++ ys) = addresses fragmentSize k xs ++ addresses fragmentSize (k + xs.length) ys := by
  induction xs generalizing k with
  | nil => simp [addresses]
  | cons b xs ih =>
    simp only [List.cons_append, addresses, ih, List.append_assoc, List.length_cons]
    congr 3
    omega

theorem mem_addresses {k i : ℕ} {bs : List (Block Str)} (h : i ∈ addresses fragmentSize k bs) :
    k ≤ i ∧ i < k + bs.length := by
  induction bs generalizing k with
  | nil => simp [addresses] at h
  | cons b bs ih =>
    rcases List.mem_append.1 h with h | h
    · obtain rfl := List.eq_of_mem_replicate h
      simp
    · have := ih h
      rw [List.length_cons]
      omega

/-- a list of blocks of which none ends with a fragment of one row has an address for every fragment -/
theorem length_addresses (k : ℕ) (bs : List (Block Str))
    (h : ∀ b ∈ bs, lastAlone entryLength fragmentSize b.rows = false) :
    (addresses fragmentSize k bs).length = (fragments fragmentSize bs).length := by
  induction bs generalizing k with
  | nil => rfl
  | cons b bs ih =>
    have hb := h b (by simp)
    have hrest := ih (k + 1) (fun b' h' => h b' (by simp [h']))
    simp only [fragments] at hrest
    simp [addresses, fragments, addressCount, hb, hrest]

theorem fragBlockIndices_addresses (as : List ℕ) (h : ∀ a ∈ as, a < 2 ^ 32) :
    fragBlockIndices (as.flatMap (encodeLE 4)) = as := by
  have hlen : (as.flatMap (encodeLE 4)).length = 4 * as.length := by
    simp [List.length_flatMap, Nat.mul_comm]
  apply List.ext_getElem
  · simp [fragBlockIndices, hlen]
  · intro i hi hi'
    have hentry := entry_flatMap (encodeLE 4) (fun n => length_encodeLE 4 n) as [] i hi'
    rw [List.append_nil, List.get_eq_getElem] at hentry
    have hlt : as[i] < 256 ^ 4 := by
      have := h as[i] (List.getElem_mem hi')
      norm_num
      omega
    simp only [fragBlockIndices, List.getElem_map, List.getElem_range, hentry, decodeLE_encodeLE_of_lt hlt]

/-! ## Reading a fragment -/

section Read

variable {fragmentSize}

theorem cString_entry (s : Str) (h : 0 ∉ s) : cString (s ++ [0]) = .ok s := by
  have htake : (s ++ [0]).takeWhile (fun c => decide (c ≠ 0)) = s := by
    rw [List.takeWhile_append_of_pos (by intro c hc; simpa using fun h0 : c = 0 => h (h0 ▸ hc))]
    simp
  simp only [cString, List.mem_append, List.mem_singleton, or_true, ↓reduceIte, htake]

/-- an entry in use gives its string -/
theorem readEntry_row (readSoFar : ℕ) (s : Str) (rest : List UInt8) (hsmall : readSoFar + entryLength s < 2 ^ 31)
    (hnul : 0 ∉ s) :
    readEntry readSoFar (entryBytes s ++ rest) = .ok ([s], readSoFar + entryLength s, rest) := by
  have hlen : readSoFar + entryLength s = readSoFar + 4 + (s.length + 1) := by
    unfold entryLength
    omega
  have hmod : (s.length + 1) % 256 ^ 4 = s.length + 1 := Nat.mod_eq_of_lt (by norm_num; omega)
  have hval : (IntN.wrap 32 ((s.length + 1 : ℕ) : ℤ)).val = (s.length + 1 : ℕ) :=
    IntN.val_wrap (by norm_num; omega) (by norm_num; omega)
  have hpos : (0 : ℤ) < ((s.length + 1 : ℕ) : ℤ) := by omega
  have hbytes : readBytes (s.length + 1) (s ++ ([0] ++ rest)) = some (s ++ [0], rest) := by
    rw [← List.append_assoc]
    exact readBytes_append _ _ (by simp)
  rw [hlen] at hsmall ⊢
  simp only [readEntry, entryBytes, List.append_assoc, readLE_encodeLE, hmod, hval, Int.natAbs_natCast,
    not_le.2 hsmall, ↓reduceIte, hpos, hbytes, cString_entry s hnul, bind, Except.bind]

/-- an int32_t is read back from its two's complement -/
theorem readLE_int32 {n : ℤ} (hlo : -(2 ^ 31) ≤ n) (hhi : n < 2 ^ 31) (rest : List UInt8) :
    ∃ m, readLE 4 (encodeLE 4 (n % 2 ^ 32).toNat ++ rest) = some (m, rest) ∧ (IntN.wrap 32 m).val = n := by
  have hnonneg := Int.emod_nonneg n (by norm_num : (2 : ℤ) ^ 32 ≠ 0)
  have hlt := Int.emod_lt_of_pos n (by norm_num : (0 : ℤ) < 2 ^ 32)
  have hmod : (n % 2 ^ 32).toNat % 256 ^ 4 = (n % 2 ^ 32).toNat := by
    apply Nat.mod_eq_of_lt
    zify
    rw [Int.toNat_of_nonneg hnonneg]
    norm_num at hlt ⊢
    exact hlt
  refine ⟨(n % 2 ^ 32).toNat, by rw [readLE_encodeLE, hmod], ?_⟩
  rw [Int.toNat_of_nonneg hnonneg, IntN.wrap_emod (by norm_num), IntN.val_wrap hlo hhi]

/-- the padding entry leads to the end of the fragment -/
theorem readEntry_padding (readSoFar free : ℕ) (rest : List UInt8) (hfree : 4 ≤ free)
    (hsmall : readSoFar + free < 2 ^ 31) :
    readEntry readSoFar (padding free ++ rest) = .ok ([], readSoFar + free, rest) := by
  obtain ⟨m, hm, hval⟩ := readLE_int32 (by omega : -(2 ^ 31) ≤ (4 - free : ℤ)) (by omega)
    (List.replicate (free - 4) 42 ++ rest)
  have habs : (4 - free : ℤ).natAbs = free - 4 := by omega
  have hnext : readSoFar + 4 + (free - 4) = readSoFar + free := by omega
  have hskip : ¬ (0 : ℤ) < 4 - free := by omega
  have hdrop : (List.replicate (free - 4) (42 : UInt8) ++ rest).drop (free - 4) = rest :=
    List.drop_left' (List.length_replicate ..)
  rw [readEntry, padding, if_pos hfree, List.append_assoc, hm]
  simp only [hval, habs, hnext, not_le.2 hsmall, ↓reduceIte, hskip, hdrop]

/-- one turn of the loop over the entries -/
theorem readEntries_step {fuel readSoFar next : ℕ} {file rest : List UInt8} {here more : List Str}
    (hgo : readSoFar + 4 ≤ fragmentSize) (hentry : readEntry readSoFar file = .ok (here, next, rest))
    (hmore : readEntries fragmentSize fuel next rest = .ok more) :
    readEntries fragmentSize (fuel + 1) readSoFar file = .ok (here ++ more) := by
  have : ¬ (fragmentSize ≤ readSoFar ∨ fragmentSize < readSoFar + 4) := by omega
  rw [readEntries, if_neg this, bind_eq_ok]
  exact ⟨_, hentry, bind_eq_ok.2 ⟨more, hmore, rfl⟩⟩

theorem readEntries_end {fuel readSoFar : ℕ} {file : List UInt8} (hend : fragmentSize < readSoFar + 4) :
    readEntries fragmentSize (fuel + 1) readSoFar file = .ok [] := by
  rw [readEntries, if_pos (Or.inr hend)]

/-- the reader takes back the rows of one fragment -/
theorem readEntries_fragment (hsmall : fragmentSize < 2 ^ 31) (bin : List Str) (fuel readSoFar : ℕ) (rest : List UInt8)
    (hfuel : fragmentSize < fuel + readSoFar) (hread : readSoFar + total entryLength bin ≤ fragmentSize)
    (hnul : ∀ s ∈ bin, 0 ∉ s) :
    readEntries fragmentSize fuel readSoFar
      (bin.flatMap entryBytes ++ (padding (fragmentSize - (readSoFar + total entryLength bin)) ++ rest)) = .ok bin := by
  induction bin generalizing fuel readSoFar with
  | nil =>
    rw [total_nil, Nat.add_zero] at hread
    obtain ⟨fuel, rfl⟩ := Nat.exists_eq_succ_of_ne_zero (by omega : fuel ≠ 0)
    by_cases hend : fragmentSize < readSoFar + 4
    · exact readEntries_end hend
    · obtain ⟨fuel, rfl⟩ := Nat.exists_eq_succ_of_ne_zero (by omega : fuel ≠ 0)
      refine readEntries_step (by omega) (readEntry_padding readSoFar _ rest ?_ ?_) (readEntries_end ?_)
      all_goals rw [total_nil]; omega
  | cons s bin ih =>
    have hlen : entryLength s = s.length + 1 + 4 := rfl
    rw [total_cons] at hread
    obtain ⟨fuel, rfl⟩ := Nat.exists_eq_succ_of_ne_zero (by omega : fuel ≠ 0)
    have hmore := ih fuel (readSoFar + entryLength s) (by omega) (by omega) (fun s' h' => hnul s' (by simp [h']))
    rw [List.flatMap_cons, List.append_assoc, total_cons, ← Nat.add_assoc]
    exact readEntries_step (by omega) (readEntry_row readSoFar s _ (by omega) (hnul s (by simp))) hmore

/-- fragment number `fragIdx` of a file of fragments -/
theorem readFragment_fragments (hsmall : fragmentSize < 2 ^ 31) (pre : List (List Str)) (bin : List Str)
    (rest : List UInt8) (hpre : ∀ b ∈ pre, total entryLength b ≤ fragmentSize)
    (hbin : total entryLength bin ≤ fragmentSize) (hnul : ∀ s ∈ bin, 0 ∉ s) :
    readFragment fragmentSize (pre.flatMap (fragment fragmentSize) ++ (fragment fragmentSize bin ++ rest)) pre.length =
      .ok bin := by
  have hlen : (pre.flatMap (fragment fragmentSize)).length = pre.length * fragmentSize := by
    induction pre with
    | nil => simp
    | cons b pre ih =>
      have hrest := ih (fun b' h' => hpre b' (by simp [h']))
      simp only [List.flatMap_cons, List.length_append, length_fragment fragmentSize (hpre b (by simp)), hrest,
        List.length_cons, Nat.succ_mul]
      omega
  have hread := readEntries_fragment hsmall bin (fragmentSize + 1) 0 rest (by omega) (by omega) hnul
  rw [readFragment, ← hlen, List.drop_left, fragment, List.append_assoc]
  simpa using hread

/-! ## Reading a block -/

theorem readFragments_append (fragdata : List UInt8) (index fragIdx : ℕ) (xs ys : List ℕ) (a b : List Str)
    (hxs : readFragments fragmentSize fragdata index fragIdx xs = .ok a)
    (hys : readFragments fragmentSize fragdata index (fragIdx + xs.length) ys = .ok b) :
    readFragments fragmentSize fragdata index fragIdx (xs ++ ys) = .ok (a ++ b) := by
  induction xs generalizing fragIdx a with
  | nil =>
    obtain rfl : [] = a := by simpa [readFragments] using hxs
    simpa using hys
  | cons x xs ih =>
    simp only [readFragments, bind_eq_ok, List.cons_append] at hxs ⊢
    obtain ⟨here, hhere, more, hmore, hok⟩ := hxs
    have hrest := ih (fragIdx + 1) more hmore (by rwa [List.length_cons, Nat.add_comm xs.length, ← Nat.add_assoc] at hys)
    obtain rfl := Except.ok.inj hok
    exact ⟨here, hhere, more ++ b, hrest, by rw [List.append_assoc]⟩

/-- fragments of other blocks are passed over -/
theorem readFragments_others (fragdata : List UInt8) (index fragIdx : ℕ) (ks : List ℕ) (h : index ∉ ks) :
    readFragments fragmentSize fragdata index fragIdx ks = .ok [] := by
  induction ks generalizing fragIdx with
  | nil => rfl
  | cons k ks ih =>
    have hk : index ≠ k := fun hk => h (by simp [hk])
    have hks : index ∉ ks := fun hks => h (by simp [hks])
    simp [readFragments, readOwnFragment, hk, ih (fragIdx + 1) hks, bind, Except.bind]

/-- the addressed fragments of a block give their rows -/
theorem readFragments_block (hsmall : fragmentSize < 2 ^ 31) (index n : ℕ) (pre addressed : List (List Str))
    (rest : List UInt8) (hn : addressed.length = n)
    (hpre : ∀ b ∈ pre, total entryLength b ≤ fragmentSize) (haddressed : ∀ b ∈ addressed, total entryLength b ≤ fragmentSize)
    (hnul : ∀ b ∈ addressed, ∀ s ∈ b, 0 ∉ s) :
    readFragments fragmentSize
        (pre.flatMap (fragment fragmentSize) ++ (addressed.flatMap (fragment fragmentSize) ++ rest)) index pre.length
        (List.replicate n index) = .ok addressed.flatten := by
  induction addressed generalizing pre n with
  | nil =>
    subst hn
    rfl
  | cons bin addressed ih =>
    subst hn
    have hfragment := readFragment_fragments hsmall pre bin (addressed.flatMap (fragment fragmentSize) ++ rest) hpre
      (haddressed bin (by simp)) (hnul bin (by simp))
    have hmore := ih addressed.length (pre ++ [bin]) rfl
      (by
        intro b hb
        rcases List.mem_append.1 hb with hb | hb
        · exact hpre b hb
        · obtain rfl := List.mem_singleton.1 hb
          exact haddressed b (by simp))
      (fun b hb => haddressed b (by simp [hb])) (fun b hb => hnul b (by simp [hb]))
    simp only [List.length_append, List.length_singleton, List.flatMap_append, List.flatMap_singleton,
      List.append_assoc] at hmore
    simp only [List.length_cons, List.replicate_succ, readFragments, readOwnFragment, ↓reduceIte, List.flatMap_cons, List.append_assoc,
      hfragment, hmore, bind, Except.bind, List.flatten_cons]

/-- the rows that the reader finds for a block: those in its addressed fragments, as long as no block before it misses
an address -/
theorem readStrings_block (hsmall : fragmentSize < 2 ^ 31) (pre post : List (Block Str)) (b : Block Str)
    (hcount : (addresses fragmentSize 0 (pre ++ b :: post)).length < 2 ^ 31)
    (hpre : ∀ b' ∈ pre, lastAlone entryLength fragmentSize b'.rows = false)
    (hfit : ∀ b' ∈ pre ++ b :: post, ∀ s ∈ b'.rows, entryLength s ≤ fragmentSize) (hnul : ∀ s ∈ b.rows, 0 ∉ s) :
    readStrings fragmentSize (addresses fragmentSize 0 (pre ++ b :: post))
        ((fragments fragmentSize (pre ++ b :: post)).flatMap (fragment fragmentSize)) pre.length =
      .ok ((bins entryLength fragmentSize b.rows).take (addressCount fragmentSize b.rows)).flatten := by
  set bs := bins entryLength fragmentSize b.rows with hbs
  have hbins : ∀ bin ∈ bs, total entryLength bin ≤ fragmentSize :=
    bins_fit entryLength fragmentSize b.rows (hfit b (by simp))
  have hbefore : ∀ bin ∈ fragments fragmentSize pre, total entryLength bin ≤ fragmentSize := by
    intro bin hbin
    obtain ⟨b', hb', hbin⟩ := List.mem_flatMap.1 hbin
    exact bins_fit entryLength fragmentSize b'.rows (hfit b' (by simp [hb'])) bin hbin
  have hchars : ∀ bin ∈ bs.take (addressCount fragmentSize b.rows), ∀ s ∈ bin, 0 ∉ s := by
    intro bin hbin s hs
    apply hnul s
    rw [← bins_flatten entryLength fragmentSize b.rows]
    exact List.mem_flatten.2 ⟨bin, List.mem_of_mem_take hbin, hs⟩
  have hown : pre.length ∉ addresses fragmentSize 0 pre := fun h => by
    have := mem_addresses fragmentSize h
    omega
  have hbehind : pre.length ∉ addresses fragmentSize (0 + pre.length + 1) post := fun h => by
    have := mem_addresses fragmentSize h
    omega
  -- the file, cut before the block's fragments and behind those that have an address
  have hfile : (fragments fragmentSize (pre ++ b :: post)).flatMap (fragment fragmentSize) =
      (fragments fragmentSize pre).flatMap (fragment fragmentSize) ++
        ((bs.take (addressCount fragmentSize b.rows)).flatMap (fragment fragmentSize) ++
          ((bs.drop (addressCount fragmentSize b.rows)).flatMap (fragment fragmentSize) ++
            (fragments fragmentSize post).flatMap (fragment fragmentSize))) := by
    have hsplit : bs.flatMap (fragment fragmentSize) =
        (bs.take (addressCount fragmentSize b.rows)).flatMap (fragment fragmentSize) ++
          (bs.drop (addressCount fragmentSize b.rows)).flatMap (fragment fragmentSize) := by
      rw [← List.flatMap_append, List.take_append_drop]
    simp only [fragments, List.flatMap_append, List.flatMap_cons, ← hbs, hsplit, List.append_assoc]
  have htaken : (bs.take (addressCount fragmentSize b.rows)).length = addressCount fragmentSize b.rows := by
    rw [List.length_take, addressCount, ← hbs]
    omega
  have hlist : addresses fragmentSize 0 (pre ++ b :: post) = addresses fragmentSize 0 pre ++
      (List.replicate (addressCount fragmentSize b.rows) pre.length ++
        addresses fragmentSize (0 + pre.length + 1) post) := by
    rw [addresses_append, addresses, Nat.zero_add]
  rw [readStrings, if_neg (not_le.2 hcount), hlist, hfile, ← List.nil_append (List.flatten _),
    ← List.append_nil (List.flatten _)]
  have hblock := readFragments_block hsmall pre.length (addressCount fragmentSize b.rows) (fragments fragmentSize pre)
    (bs.take (addressCount fragmentSize b.rows))
    ((bs.drop (addressCount fragmentSize b.rows)).flatMap (fragment fragmentSize) ++
      (fragments fragmentSize post).flatMap (fragment fragmentSize)) htaken hbefore
    (fun bin hbin => hbins bin (List.mem_of_mem_take hbin)) hchars
  apply readFragments_append _ _ _ _ _ _ _ (readFragments_others _ _ _ _ hown)
  apply readFragments_append _ _ _ _ _ _ _ _ (readFragments_others _ _ _ _ hbehind)
  rwa [Nat.zero_add, length_addresses fragmentSize 0 pre hpre]

/-- a block whose last row did not open a fragment has all its addresses -/
theorem addressed_rows (rows : List Str) (h : lastAlone entryLength fragmentSize rows = false) :
    ((bins entryLength fragmentSize rows).take (addressCount fragmentSize rows)).flatten = rows := by
  rw [addressCount, h, Bool.toNat_false, Nat.sub_zero, List.take_length, bins_flatten]

/-- a block whose last row opened a fragment loses it -/
theorem addressed_rows_short (rows : List Str) (h : lastAlone entryLength fragmentSize rows = true) :
    ((bins entryLength fragmentSize rows).take (addressCount fragmentSize rows)).flatten ≠ rows := by
  rw [addressCount, h, Bool.toNat_true, ← List.dropLast_eq_take]
  exact bins_dropLast_of_lastAlone entryLength fragmentSize rows h

end Read

/-! ## Loading -/

section Load

variable {blockSize : ℕ} {isNullable isUnique : Bool} (path name : String) (fill : ℕ → ℕ → BitVec 64)

theorem enterHashmap_iff {c : Column Str} (values seen : List Str) (hnull : c.isUnique = true → c.isNullable = false)
    (hseen : c.uniqueHashmap.Nodup) :
    enterHashmap path showStr c values = .ok seen ↔
      (c.isUnique = true → (values.reverse ++ c.uniqueHashmap).Nodup) ∧
        seen = if c.isUnique then values.reverse ++ c.uniqueHashmap else c.uniqueHashmap := by
  cases hu : c.isUnique with
  | false => simp [enterHashmap, hu, eq_comm]
  | true =>
    by_cases hdup : (values.reverse ++ c.uniqueHashmap).Nodup
    · simp [enterHashmap, hu, hnull hu, enterUnique_ok path showStr values _ hdup, hdup, eq_comm]
    · obtain ⟨msg, hmsg⟩ := enterUnique_duplicate path showStr values _ hseen hdup
      simp [enterHashmap, hu, hnull hu, hmsg, hdup]

theorem recordBlock_ok {c : Column Str} (fillMask : ℕ → BitVec 64) (head : ℕ × ℤ × List UInt8) (dataString : List Str)
    (hfit : dataString.length ≤ c.blockSize) :
    ∃ b, recordBlock c fillMask head dataString = .ok b ∧ b.rows = dataString := by
  obtain ⟨b, hb, -, hrows, -⟩ := Block.insertData_ok
    (Block.empty_valid (α := Str) c.blockSize c.isNullable false head.1) dataString false
    (by simpa [Block.empty] using hfit)
  set m := maskBuffer (getNullBitMaskSize c.blockSize) fillMask head.2.2 with hm
  obtain ⟨hdata, hsize, -⟩ := Block.moveNullBitmask_store b m
  refine ⟨b.moveNullBitmask m, by simp only [recordBlock, hb, bind, Except.bind, hm], ?_⟩
  rw [Block.rows, hdata, hsize, ← Block.rows, hrows]
  simp [Block.rows, Block.empty]

theorem recordBlock_fits {c : Column Str} {fillMask : ℕ → BitVec 64} {head : ℕ × ℤ × List UInt8}
    {dataString : List Str} {b : Block Str} (h : recordBlock c fillMask head dataString = .ok b) :
    dataString.length ≤ c.blockSize := by
  obtain ⟨b', hb', -⟩ := bind_eq_ok.1 h
  by_contra hfit
  have : (Block.empty c.blockSize c.isNullable false head.1 : Block Str).emptyBlockSpace < dataString.length := by
    simpa [Block.emptyBlockSpace, Block.empty] using hfit
  simp [Block.insertData, this] at hb'

/-- the column after a record is accepted -/
def entered (c : Column Str) (old : List (Block Str)) (b : Block Str) (dataString : List Str) : Column Str :=
  { c with
    blocks := [(-1, old ++ [b])]
    uniqueHashmap := if c.isUnique then dataString.reverse ++ c.uniqueHashmap else c.uniqueHashmap }

/-- what a record leaves in the column, if it is accepted -/
theorem enterRecord_iff {c c' : Column Str} {old : List (Block Str)} (hold : c.blocks = [(-1, old)])
    (hnull : c.isUnique = true → c.isNullable = false) (hseen : c.uniqueHashmap.Nodup) (fillMask : ℕ → BitVec 64)
    (index : ℕ) (mask : List UInt8) (hmask : mask.length ≤ getNullBitMaskSize c.blockSize * 8) (dataString : List Str) :
    enterRecord path c fillMask (index, -1, mask) dataString = .ok c' ↔
      (c.isUnique = true → (dataString.reverse ++ c.uniqueHashmap).Nodup) ∧
        ∃ b, recordBlock c fillMask (index, -1, mask) dataString = .ok b ∧
          c' = entered c old b dataString := by
  have hgroup : ∀ b, c.setGroup (-1) (c.group (-1) ++ [b]) = { c with blocks := [(-1, old ++ [b])] } := by
    intro b
    simp [Column.setGroup, Column.group, Column.putGroup, hold]
  rw [enterRecord, enterRows, if_neg (not_lt.2 hmask), bind_eq_ok]
  simp only [bind_eq_ok, enterHashmap_iff path dataString _ hnull hseen, hgroup, Except.ok.injEq]
  constructor
  · rintro ⟨seen, ⟨huniq, rfl⟩, b, hb, rfl⟩
    exact ⟨huniq, b, hb, rfl⟩
  · rintro ⟨huniq, b, hb, rfl⟩
    exact ⟨_, ⟨huniq, rfl⟩, b, hb, rfl⟩

/-- one turn of the loop over the records -/
theorem loadBlocks_cons (indices : List ℕ) (fragdata : List UInt8) (junk : ℕ → ℕ → UInt8) (fuel k : ℕ) (c : Column Str)
    (b : Block Str) (bs : List (Block Str)) (hb : b.Valid c.blockSize c.isNullable) (hblock : c.blockSize < 2 ^ 31)
    (hk : k < 2 ^ 32) :
    loadBlocks fragmentSize path fill indices fragdata (fuel + 1) k c (dataFile c.isNullable junk k (b :: bs)) =
      (do
        let dataString ← readStrings fragmentSize indices fragdata k
        let c' ← enterRecord path c (fill k) (k, -1, maskBytes c.isNullable (junk k) b) dataString
        loadBlocks fragmentSize path fill indices fragdata fuel (k + 1) c' (dataFile c.isNullable junk (k + 1) bs)) := by
  have hmask : (maskBytes c.isNullable (junk k) b).length < 2 ^ 32 := by
    have := hb.size_le
    rw [length_maskBytes _ hb, nullBitMaskLength, getNullBitMaskSize]
    omega
  have hfile : dataFile c.isNullable junk k (b :: bs) = recordHead (maskBytes c.isNullable (junk k) b) k ++
      (encodeLE 8 b.size ++ dataFile c.isNullable junk (k + 1) bs) := by
    simp [dataFile, stringRecord]
  have hdrop : (encodeLE 8 b.size ++ dataFile c.isNullable junk (k + 1) bs).drop 8 =
      dataFile c.isNullable junk (k + 1) bs := List.drop_left' (length_encodeLE 8 b.size)
  simp only [loadBlocks, hfile, readHead_record _ _ hk hmask, hdrop]

theorem loadBlocks_nil (indices : List ℕ) (fragdata : List UInt8) (junk : ℕ → ℕ → UInt8) (fuel k : ℕ)
    (c : Column Str) :
    loadBlocks fragmentSize path fill indices fragdata (fuel + 1) k c (dataFile c.isNullable junk k []) = .ok c := by
  simp [loadBlocks, dataFile, readHead_nil]

theorem length_maskBytes_le {c : Column Str} {b : Block Str} (junk : ℕ → UInt8)
    (hb : b.Valid c.blockSize c.isNullable) :
    (maskBytes c.isNullable junk b).length ≤ getNullBitMaskSize c.blockSize * 8 := by
  have := hb.size_le
  rw [length_maskBytes _ hb, nullBitMaskLength, getNullBitMaskSize, getNullBitMaskSize]
  omega

/-- a load that returns has entered, for every record, the strings that the reader finds for its index -/
theorem loadBlocks_inv (indices : List ℕ) (fragdata : List UInt8) (junk : ℕ → ℕ → UInt8) (bs : List (Block Str))
    (fuel k : ℕ) (c c' : Column Str) (old : List (Block Str)) (hold : c.blocks = [(-1, old)])
    (hnull : c.isUnique = true → c.isNullable = false) (hseen : c.uniqueHashmap.Nodup) (hblock : c.blockSize < 2 ^ 31)
    (hbs : ∀ b ∈ bs, b.Valid c.blockSize c.isNullable) (hk : k + bs.length ≤ 2 ^ 32) (hfuel : bs.length < fuel)
    (hload : loadBlocks fragmentSize path fill indices fragdata fuel k c (dataFile c.isNullable junk k bs) = .ok c') :
    ∃ new, c'.blocks = [(-1, old ++ new)] ∧
      List.Forall₂ (fun i b => readStrings fragmentSize indices fragdata i = .ok b.rows) (List.range' k bs.length)
        new ∧
      (c.isUnique = true → ((new.flatMap Block.rows).reverse ++ c.uniqueHashmap).Nodup) := by
  induction bs generalizing fuel k c old with
  | nil =>
    obtain ⟨fuel, rfl⟩ := Nat.exists_eq_succ_of_ne_zero (by omega : fuel ≠ 0)
    rw [loadBlocks_nil] at hload
    obtain rfl := Except.ok.inj hload
    exact ⟨[], by simpa using hold, by simp, fun _ => by simpa using hseen⟩
  | cons b bs ih =>
    obtain ⟨fuel, rfl⟩ := Nat.exists_eq_succ_of_ne_zero (by omega : fuel ≠ 0)
    rw [List.length_cons] at hk hfuel
    have hb := hbs b (by simp)
    rw [loadBlocks_cons fragmentSize path fill indices fragdata junk fuel k c b bs hb hblock (by omega)] at hload
    obtain ⟨dataString, hread, hload⟩ := bind_eq_ok.1 hload
    obtain ⟨c₁, henter, hload⟩ := bind_eq_ok.1 hload
    obtain ⟨huniq, b', hb', rfl⟩ :=
      (enterRecord_iff path hold hnull hseen (fill k) k _ (length_maskBytes_le (junk k) hb) dataString).1 henter
    obtain ⟨b'', hb'', hrows⟩ := recordBlock_ok (fill k) (k, -1, maskBytes c.isNullable (junk k) b) dataString
      (recordBlock_fits hb')
    obtain rfl : b'' = b' := Except.ok.inj (hb''.symm.trans hb')
    have hseen' : (if c.isUnique then dataString.reverse ++ c.uniqueHashmap else c.uniqueHashmap).Nodup := by
      split_ifs with hu
      · exact huniq hu
      · exact hseen
    obtain ⟨new, hblocks, hnew, hnodup⟩ := ih fuel (k + 1)
      (entered c old b'' dataString) (old ++ [b'']) rfl hnull hseen' hblock
      (fun b' h' => hbs b' (by simp [h'])) (by omega) (by omega) hload
    refine ⟨b'' :: new, by simpa using hblocks, ?_, ?_⟩
    · rw [List.length_cons, List.range'_succ]
      exact .cons (hrows.symm ▸ hread) hnew
    · intro hu
      simpa [entered, hu, hrows] using hnodup hu

/-- a load whose records all give strings, within the block size and distinct where they have to be, returns -/
theorem loadBlocks_ok (indices : List ℕ) (fragdata : List UInt8) (junk : ℕ → ℕ → UInt8) (bs : List (Block Str))
    (strings : List (List Str)) (fuel k : ℕ) (c : Column Str) (old : List (Block Str)) (hold : c.blocks = [(-1, old)])
    (hnull : c.isUnique = true → c.isNullable = false) (hseen : c.uniqueHashmap.Nodup) (hblock : c.blockSize < 2 ^ 31)
    (hbs : ∀ b ∈ bs, b.Valid c.blockSize c.isNullable) (hk : k + bs.length ≤ 2 ^ 32) (hfuel : bs.length < fuel)
    (hread : List.Forall₂ (fun i s => readStrings fragmentSize indices fragdata i = .ok s ∧ s.length ≤ c.blockSize)
      (List.range' k bs.length) strings)
    (huniq : c.isUnique = true → (strings.flatten.reverse ++ c.uniqueHashmap).Nodup) :
    ∃ c', loadBlocks fragmentSize path fill indices fragdata fuel k c (dataFile c.isNullable junk k bs) = .ok c' ∧
      c'.getBlocksList.map Block.rows = old.map Block.rows ++ strings := by
  induction bs generalizing fuel k c old strings with
  | nil =>
    obtain ⟨fuel, rfl⟩ := Nat.exists_eq_succ_of_ne_zero (by omega : fuel ≠ 0)
    obtain rfl : strings = [] := by simpa using hread
    exact ⟨c, loadBlocks_nil fragmentSize path fill indices fragdata junk fuel k c, by simp [Column.getBlocksList, hold]⟩
  | cons b bs ih =>
    obtain ⟨fuel, rfl⟩ := Nat.exists_eq_succ_of_ne_zero (by omega : fuel ≠ 0)
    rw [List.length_cons] at hk hfuel
    rw [List.length_cons, List.range'_succ] at hread
    obtain ⟨dataString, strings', ⟨hstring, hfit⟩, hrest, rfl⟩ := List.forall₂_cons_left_iff.1 hread
    have hb := hbs b (by simp)
    obtain ⟨b', hb', hrows⟩ := recordBlock_ok (fill k) (k, -1, maskBytes c.isNullable (junk k) b) dataString hfit
    have huniq' : c.isUnique = true → (strings'.flatten.reverse ++ (dataString.reverse ++ c.uniqueHashmap)).Nodup := by
      intro hu
      simpa using huniq hu
    have hhead : c.isUnique = true → (dataString.reverse ++ c.uniqueHashmap).Nodup :=
      fun hu => (List.nodup_append.1 (huniq' hu)).2.1
    have henter := (enterRecord_iff path hold hnull hseen (fill k) k _ (length_maskBytes_le (junk k) hb) dataString).2
      ⟨hhead, b', hb', rfl⟩
    have hseen' : (if c.isUnique then dataString.reverse ++ c.uniqueHashmap else c.uniqueHashmap).Nodup := by
      split_ifs with hu
      · exact hhead hu
      · exact hseen
    obtain ⟨c', hload, hlist⟩ := ih strings' fuel (k + 1) (entered c old b' dataString) (old ++ [b']) rfl hnull hseen' hblock
      (fun b' h' => hbs b' (by simp [h'])) (by omega) (by omega) hrest (fun hu => by
        have hu' : c.isUnique = true := hu
        simpa [entered, hu'] using huniq' hu)
    refine ⟨c', ?_, by simpa [hrows] using hlist⟩
    rw [loadBlocks_cons fragmentSize path fill indices fragdata junk fuel k c b bs hb hblock (by omega)]
    exact bind_eq_ok.2 ⟨dataString, hstring, bind_eq_ok.2 ⟨_, henter, hload⟩⟩

theorem loadColumn_dataFile (junk : ℕ → ℕ → UInt8) (bs : List (Block Str)) (adrs fragdata : List UInt8)
    (hnull : isUnique = true → isNullable = false) :
    loadColumn fragmentSize path fill name blockSize isNullable isUnique
        ⟨dataFile isNullable junk 0 bs, adrs, fragdata⟩ =
      loadBlocks fragmentSize path fill (fragBlockIndices adrs) fragdata ((dataFile isNullable junk 0 bs).length + 1) 0
        ⟨name, blockSize, 0, [(-1, [])], isNullable, isUnique, []⟩ (dataFile isNullable junk 0 bs) := by
  rw [loadColumn, created_ok name blockSize hnull]
  by_cases hempty : dataFile isNullable junk 0 bs = []
  · simp [hempty, loadBlocks, readHead_nil, bind, Except.bind]
  · simp [hempty, bind, Except.bind]

theorem length_le_dataFile (junk : ℕ → ℕ → UInt8) (k : ℕ) (bs : List (Block Str)) :
    bs.length ≤ (dataFile isNullable junk k bs).length := by
  induction bs generalizing k with
  | nil => simp
  | cons b bs ih =>
    have := ih (k + 1)
    simp only [dataFile, stringRecord, List.length_append, List.length_cons, length_encodeLE]
    omega

end Load

/-! ## Load undoes save -/

section RoundTrip

variable {fragmentSize}

/-- the reader finds the rows of every block exactly when none of them ends with a row that opened a fragment -/
theorem readStrings_iff (hsmall : fragmentSize < 2 ^ 31) (bs : List (Block Str))
    (hrows : ∀ b ∈ bs, ∀ s ∈ b.rows, 0 ∉ s ∧ entryLength s ≤ fragmentSize) :
    (∀ (k : ℕ) (hk : k < bs.length), readStrings fragmentSize (addresses fragmentSize 0 bs)
        ((fragments fragmentSize bs).flatMap (fragment fragmentSize)) k = .ok (bs.get ⟨k, hk⟩).rows) ↔
      (∀ b ∈ bs, lastAlone entryLength fragmentSize b.rows = false) ∧ (fragments fragmentSize bs).length < 2 ^ 31 := by
  have hblock : ∀ (k : ℕ) (hk : k < bs.length), (addresses fragmentSize 0 bs).length < 2 ^ 31 →
      (∀ b ∈ bs.take k, lastAlone entryLength fragmentSize b.rows = false) →
      readStrings fragmentSize (addresses fragmentSize 0 bs)
        ((fragments fragmentSize bs).flatMap (fragment fragmentSize)) k =
      .ok ((bins entryLength fragmentSize (bs.get ⟨k, hk⟩).rows).take
        (addressCount fragmentSize (bs.get ⟨k, hk⟩).rows)).flatten := by
    intro k hk hcount hpre
    have hsplit : bs.take k ++ bs.get ⟨k, hk⟩ :: bs.drop (k + 1) = bs := by simp
    have hlen : (bs.take k).length = k := by
      rw [List.length_take]
      omega
    have := readStrings_block hsmall (bs.take k) (bs.drop (k + 1)) (bs.get ⟨k, hk⟩) (by rwa [hsplit]) hpre
      (by rw [hsplit]; exact fun b hb s hs => (hrows b hb s hs).2)
      (fun s hs => (hrows _ (List.get_mem bs ⟨k, hk⟩) s hs).1)
    rwa [hsplit, hlen] at this
  constructor
  · intro h
    have hcount : (addresses fragmentSize 0 bs).length < 2 ^ 31 := by
      cases bs with
      | nil => simp [addresses]
      | cons b bs =>
        by_contra hge
        have := h 0 (by simp)
        rw [readStrings, if_pos (not_lt.1 hge)] at this
        simp at this
    have halone : ∀ k (hk : k < bs.length), lastAlone entryLength fragmentSize (bs.get ⟨k, hk⟩).rows = false := by
      intro k
      induction k using Nat.strong_induction_on with
      | _ k ih =>
        intro hk
        have hpre : ∀ b ∈ bs.take k, lastAlone entryLength fragmentSize b.rows = false := by
          intro b hb
          obtain ⟨i, hi, rfl⟩ := List.mem_iff_getElem.1 hb
          rw [List.length_take] at hi
          rw [List.getElem_take]
          exact ih i (by omega) (by omega)
        by_contra hlast
        have hfound := (h k hk).symm.trans (hblock k hk hcount hpre)
        exact addressed_rows_short _ (by simpa using hlast) (Except.ok.inj hfound).symm
    have hall : ∀ b ∈ bs, lastAlone entryLength fragmentSize b.rows = false := by
      intro b hb
      obtain ⟨i, hi, rfl⟩ := List.mem_iff_getElem.1 hb
      exact halone i hi
    exact ⟨hall, by rwa [← length_addresses fragmentSize 0 bs hall]⟩
  · rintro ⟨hall, hcount⟩ k hk
    rw [hblock k hk (by rwa [length_addresses fragmentSize 0 bs hall]) (fun b hb => hall b (List.mem_of_mem_take hb)),
      addressed_rows _ (hall _ (List.get_mem bs ⟨k, hk⟩))]

/-- loading the files of a column gives back the strings of its blocks, in order -/
def Restores (fragmentSize : ℕ) (path : String) (fill : ℕ → ℕ → BitVec 64) (junk : ℕ → ℕ → UInt8) (c : Column Str) :
    Prop :=
  ∃ files c', writeColumn fragmentSize junk c = .ok files ∧
    loadColumn fragmentSize path fill c.name c.blockSize c.isNullable c.isUnique files = .ok c' ∧
    c'.getBlocksList.map Block.rows = c.getBlocksList.map Block.rows

theorem writeColumn_files (hsmall : fragmentSize < 2 ^ 31) (junk : ℕ → ℕ → UInt8) (c : Column Str)
    (hrows : ∀ b ∈ c.getBlocksList, ∀ s ∈ b.rows, 0 ∉ s ∧ entryLength s ≤ fragmentSize) :
    writeColumn fragmentSize junk c =
      .ok ⟨dataFile c.isNullable junk 0 (c.getBlocksList.take UINT32_MAX),
        (addresses fragmentSize 0 (c.getBlocksList.take UINT32_MAX)).flatMap (encodeLE 4),
        (fragments fragmentSize (c.getBlocksList.take UINT32_MAX)).flatMap (fragment fragmentSize)⟩ :=
  writeBlocks_files fragmentSize junk hsmall 0 c.getBlocksList (fun b hb s hs => (hrows b hb s hs).2) (by decide)

section

variable (path : String) (fill : ℕ → ℕ → BitVec 64) (junk : ℕ → ℕ → UInt8) {c : Column Str}

/-- reading the files of the blocks that the writer lets through -/
theorem fragBlockIndices_written (c : Column Str) :
    fragBlockIndices ((addresses fragmentSize 0 (c.getBlocksList.take UINT32_MAX)).flatMap (encodeLE 4)) =
      addresses fragmentSize 0 (c.getBlocksList.take UINT32_MAX) := by
  apply fragBlockIndices_addresses
  intro a ha
  have hlt := (mem_addresses fragmentSize ha).2
  rw [List.length_take, UINT32_MAX] at hlt
  omega

/-- what a successful round trip says about every block -/
theorem restores_inv (hsmall : fragmentSize < 2 ^ 31) (h : c.Valid)
    (hrows : ∀ b ∈ c.getBlocksList, ∀ s ∈ b.rows, 0 ∉ s ∧ entryLength s ≤ fragmentSize)
    (hrestores : Restores fragmentSize path fill junk c) :
    c.getBlocksList.length ≤ UINT32_MAX ∧
      (∀ (k : ℕ) (hk : k < c.getBlocksList.length), readStrings fragmentSize (addresses fragmentSize 0 c.getBlocksList)
        ((fragments fragmentSize c.getBlocksList).flatMap (fragment fragmentSize)) k =
          .ok (c.getBlocksList.get ⟨k, hk⟩).rows) ∧
      (c.isUnique = true → (c.getBlocksList.flatMap Block.rows).Nodup) := by
  obtain ⟨files, c', hwrite, hload, hsame⟩ := hrestores
  rw [writeColumn_files hsmall junk c hrows] at hwrite
  obtain rfl := Except.ok.inj hwrite
  rw [loadColumn_dataFile fragmentSize path c.name fill junk _ _ _ h.notNull, fragBlockIndices_written] at hload
  obtain ⟨new, hblocks, hread, huniq⟩ := loadBlocks_inv fragmentSize path fill _ _ junk
    (c.getBlocksList.take UINT32_MAX) _ 0 ⟨c.name, c.blockSize, 0, [(-1, [])], c.isNullable, c.isUnique, []⟩ c' [] rfl
    h.notNull List.nodup_nil h.small
    (fun b hb => h.blocks b (List.mem_of_mem_take hb)) (by rw [List.length_take, UINT32_MAX]; omega)
    (Nat.lt_succ_of_le (length_le_dataFile junk 0 _)) hload
  have hnew : new.map Block.rows = c.getBlocksList.map Block.rows := by
    simpa [Column.getBlocksList, hblocks] using hsame
  have hlen : c.getBlocksList.length ≤ UINT32_MAX := by
    have h₁ := hread.length_eq
    have h₂ := congrArg List.length hnew
    rw [List.length_range', List.length_take] at h₁
    rw [List.length_map, List.length_map] at h₂
    omega
  rw [List.take_of_length_le hlen] at hread
  refine ⟨hlen, ?_, ?_⟩
  · intro k hk
    have hread' : List.Forall₂ (fun i s => readStrings fragmentSize (addresses fragmentSize 0 c.getBlocksList)
        ((fragments fragmentSize c.getBlocksList).flatMap (fragment fragmentSize)) i = .ok s)
        (List.range' 0 c.getBlocksList.length) (new.map Block.rows) := List.forall₂_map_right_iff.2 hread
    rw [hnew] at hread'
    have := hread'.get (i := k) (by simpa using hk) (by simpa using hk)
    simpa using this
  · intro hu
    have := huniq hu
    rw [List.flatMap_def, hnew, ← List.flatMap_def] at this
    simpa using this

theorem restores_of_read (hsmall : fragmentSize < 2 ^ 31) (h : c.Valid)
    (hrows : ∀ b ∈ c.getBlocksList, ∀ s ∈ b.rows, 0 ∉ s ∧ entryLength s ≤ fragmentSize)
    (hcount : c.getBlocksList.length ≤ UINT32_MAX)
    (hread : ∀ (k : ℕ) (hk : k < c.getBlocksList.length),
      readStrings fragmentSize (addresses fragmentSize 0 c.getBlocksList)
        ((fragments fragmentSize c.getBlocksList).flatMap (fragment fragmentSize)) k =
          .ok (c.getBlocksList.get ⟨k, hk⟩).rows)
    (huniq : c.isUnique = true → (c.getBlocksList.flatMap Block.rows).Nodup) :
    Restores fragmentSize path fill junk c := by
  have hwrite := writeColumn_files hsmall junk c hrows
  have hindices : fragBlockIndices ((addresses fragmentSize 0 _).flatMap (encodeLE 4)) = _ := fragBlockIndices_written c
  rw [List.take_of_length_le hcount] at hwrite hindices
  have hstrings : List.Forall₂ (fun i s => readStrings fragmentSize (addresses fragmentSize 0 c.getBlocksList)
      ((fragments fragmentSize c.getBlocksList).flatMap (fragment fragmentSize)) i = .ok s ∧ s.length ≤ c.blockSize)
      (List.range' 0 c.getBlocksList.length) (c.getBlocksList.map Block.rows) := by
    refine List.forall₂_iff_get.2 ⟨by simp, ?_⟩
    intro i hi hi'
    have hi'' : i < c.getBlocksList.length := by simpa using hi'
    have hb := h.blocks _ (List.get_mem c.getBlocksList ⟨i, hi''⟩)
    have hsize := hb.size_le
    rw [← hb.rows_length] at hsize
    simpa using ⟨hread i hi'', hsize⟩
  obtain ⟨c', hload, hlist⟩ := loadBlocks_ok fragmentSize path fill _ _ junk c.getBlocksList _
    ((dataFile c.isNullable junk 0 c.getBlocksList).length + 1) 0
    ⟨c.name, c.blockSize, 0, [(-1, [])], c.isNullable, c.isUnique, []⟩ [] rfl h.notNull List.nodup_nil h.small h.blocks
    (by rw [UINT32_MAX] at hcount; omega) (Nat.lt_succ_of_le (length_le_dataFile junk 0 _)) hstrings
    (fun hu => by simpa [← List.flatMap_def] using huniq hu)
  refine ⟨_, c', hwrite, ?_, by simpa using hlist⟩
  rw [loadColumn_dataFile fragmentSize path c.name fill junk _ _ _ h.notNull, hindices]
  exact hload

end

end RoundTrip

/-- **When load undoes save for string columns.** For every valid string column without NUL characters whose strings
each fit into a fragment, LoadColumn of the files of WriteColumn returns the same strings in the same blocks if and only
if no block ends with a row that opened a fragment behind the block's first, there are at most 2^32 - 1 blocks and fewer
than 2^31 fragments, and a UNIQUE column holds pairwise distinct strings. -/
theorem load_undoes_save_iff (path : String) (fill : ℕ → ℕ → BitVec 64) (junk : ℕ → ℕ → UInt8) (c : Column Str)
    (h : c.Valid)
    (hrows : ∀ b ∈ c.getBlocksList, ∀ s ∈ b.rows, 0 ∉ s ∧ s.length + 1 + 4 ≤ FRAGMENT_SIZE_BYTES) :
    Restores FRAGMENT_SIZE_BYTES path fill junk c ↔
      (∀ b ∈ c.getBlocksList, lastAlone entryLength FRAGMENT_SIZE_BYTES b.rows = false) ∧
        c.getBlocksList.length ≤ UINT32_MAX ∧
        (c.getBlocksList.map fun b => (bins entryLength FRAGMENT_SIZE_BYTES b.rows).length).sum < 2 ^ 31 ∧
        (c.isUnique = true → (c.getBlocksList.flatMap Block.rows).Nodup) := by
  have hsmall : FRAGMENT_SIZE_BYTES < 2 ^ 31 := by decide
  have hfragments : (fragments FRAGMENT_SIZE_BYTES c.getBlocksList).length =
      (c.getBlocksList.map fun b => (bins entryLength FRAGMENT_SIZE_BYTES b.rows).length).sum := by
    rw [fragments, List.length_flatMap]
  constructor
  · intro hrestores
    obtain ⟨hcount, hread, huniq⟩ := restores_inv path fill junk hsmall h hrows hrestores
    obtain ⟨halone, hlen⟩ := (readStrings_iff hsmall c.getBlocksList hrows).1 hread
    exact ⟨halone, hcount, hfragments ▸ hlen, huniq⟩
  · rintro ⟨halone, hcount, hlen, huniq⟩
    have hread := (readStrings_iff hsmall c.getBlocksList hrows).2 ⟨halone, hfragments ▸ hlen⟩
    exact restores_of_read path fill junk hsmall h hrows hcount hread huniq

/-- a nullable column of block size 2: a full block with a NULL and a partly filled one -/
def sampleColumn : Column Str where
  name := "a"
  blockSize := 2
  size := 3
  blocks := [(-1, [⟨[[104, 105], []], 2, [104, 105], [104, 105], 0, [], 1, 2, some [2], true, UINT32_MAX⟩,
    ⟨[[98]], 1, [98], [98], 0, [], 1, 2, some [0], true, UINT32_MAX⟩])]
  isNullable := true
  isUnique := false
  uniqueHashmap := []

theorem sampleColumn_valid : sampleColumn.Valid := by
  refine ⟨by decide, ?_, by decide⟩
  intro b hb
  simp only [sampleColumn, Column.getBlocksList, List.flatMap_cons, List.flatMap_nil, List.append_nil, List.mem_cons,
    List.not_mem_nil, or_false] at hb
  rcases hb with rfl | rfl
  · exact ⟨rfl, by decide, by decide, rfl, by simp [getNullBitMaskSize, sampleColumn]⟩
  · exact ⟨rfl, by decide, by decide, rfl, by simp [getNullBitMaskSize, sampleColumn]⟩

theorem load_undoes_save_iff_sample :
    Restores FRAGMENT_SIZE_BYTES "a.data" (fun _ _ => 0) (fun _ _ => 0) sampleColumn :=
  (load_undoes_save_iff "a.data" (fun _ _ => 0) (fun _ _ => 0) sampleColumn sampleColumn_valid (by decide)).2
    (by decide)

/-- a block of two strings of n characters -/
def pairColumn (n : ℕ) : Column Str where
  name := "a"
  blockSize := 2
  size := 2
  blocks := [(-1, [⟨[List.replicate n 120, List.replicate n 120], 2, List.replicate n 120, List.replicate n 120, 0, [],
    2, 2, none, true, UINT32_MAX⟩])]
  isNullable := false
  isUnique := false
  uniqueHashmap := []

/-- two strings that do not go into one fragment: the second opens another -/
theorem lastAlone_pair {s s' : Str} (hs : entryLength s ≤ fragmentSize)
    (hover : fragmentSize < entryLength s + entryLength s') : lastAlone entryLength fragmentSize [s, s'] = true := by
  simp [lastAlone, pack, hs, not_le.2 hover, endsAlone]

theorem pairColumn_lost (n : ℕ) (hn : n + 1 + 4 ≤ FRAGMENT_SIZE_BYTES)
    (hover : FRAGMENT_SIZE_BYTES < 2 * (n + 1 + 4)) :
    (∀ b ∈ (pairColumn n).getBlocksList, ∀ s ∈ b.rows, 0 ∉ s ∧ s.length + 1 + 4 ≤ FRAGMENT_SIZE_BYTES) ∧
      (pairColumn n).Valid ∧
      ¬ Restores FRAGMENT_SIZE_BYTES "a.data" (fun _ _ => 0) (fun _ _ => 0) (pairColumn n) := by
  have hrows : ∀ b ∈ (pairColumn n).getBlocksList, b.rows = [List.replicate n 120, List.replicate n 120] := by
    intro b hb
    simp only [pairColumn, Column.getBlocksList, List.flatMap_cons, List.flatMap_nil, List.append_nil,
      List.mem_singleton] at hb
    subst hb
    rfl
  have hchars : ∀ b ∈ (pairColumn n).getBlocksList, ∀ s ∈ b.rows, 0 ∉ s ∧ s.length + 1 + 4 ≤ FRAGMENT_SIZE_BYTES := by
    intro b hb s hs
    rw [hrows b hb] at hs
    obtain rfl : s = List.replicate n 120 := by simpa using hs
    refine ⟨fun h0 => ?_, by rwa [List.length_replicate]⟩
    have := List.eq_of_mem_replicate h0
    simp at this
  have hvalid : (pairColumn n).Valid := by
    refine ⟨by simp [pairColumn], ?_, by simp [pairColumn]⟩
    intro b hb
    simp only [pairColumn, Column.getBlocksList, List.flatMap_cons, List.flatMap_nil, List.append_nil,
      List.mem_singleton] at hb
    subst hb
    exact ⟨rfl, by simp, by simp [pairColumn], rfl, by simp⟩
  refine ⟨hchars, hvalid, ?_⟩
  intro hrestores
  obtain ⟨-, hread, -⟩ := restores_inv "a.data" (fun _ _ => 0) (fun _ _ => 0) (by decide) hvalid hchars hrestores
  have hmem : (⟨[List.replicate n 120, List.replicate n 120], 2, List.replicate n 120, List.replicate n 120, 0, [],
      2, 2, none, true, UINT32_MAX⟩ : Block Str) ∈ (pairColumn n).getBlocksList := by
    simp [pairColumn, Column.getBlocksList]
  have halone := ((readStrings_iff (by decide) _ hchars).1 hread).1 _ hmem
  have hlen : entryLength (List.replicate n (120 : UInt8)) = n + 1 + 4 := by simp [entryLength]
  rw [hrows _ hmem] at halone
  have hpair := lastAlone_pair FRAGMENT_SIZE_BYTES (hlen.trans_le hn) (by rw [hlen]; omega)
  exact Bool.false_ne_true (halone.symm.trans hpair)

/-- The second of two strings of 600000 characters opens a fragment as the last row of its block and is lost. -/
theorem load_loses_last_string :
    (∀ b ∈ (pairColumn 600000).getBlocksList, ∀ s ∈ b.rows, 0 ∉ s ∧ s.length + 1 + 4 ≤ FRAGMENT_SIZE_BYTES) ∧
      (pairColumn 600000).Valid ∧
      ¬ Restores FRAGMENT_SIZE_BYTES "a.data" (fun _ _ => 0) (fun _ _ => 0) (pairColumn 600000) :=
  pairColumn_lost 600000 (by decide) (by decide)

end QikkDB.StringFormat

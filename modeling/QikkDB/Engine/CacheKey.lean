/-
The keys of the GPU memory cache (QueryEngine/GPUMemoryCache.h, `GetColumn`). A key is the plain concatenation

    database.table.column[_nullMask]_blockIndex_loadSize_loadOffset

of names chosen by the user and decimal numbers. Neither '.' nor '_' is escaped in the names, and "_nullMask" may be the
end of a column name.

Results:
- `columnBlock_inj`: the numbers of a key can be read back, whatever the names are.
- `fullName_inj`: so can the names, but for dots inside them (`Regrouped`) and for a column named like a null mask.
- `key_inj_or_collide`, `Collide.key_eq`: two requests share a key without being equal exactly when they `Collide`.
-/
import Mathlib.Tactic
import QikkDB.Lib.Decimal
import QikkDB.Lib.Separated

namespace QikkDB.CacheKey

open Decimal

/-! ## Model -/

def NULL_SUFFIX : Text := "_nullMask".toList

/-- `columnBlock` of `GetColumn` and `ContainsColumn` -/
def columnBlock (databaseName tableAndColumnName : Text) (blockIndex loadSize loadOffset : ℤ) : Text :=
  databaseName ++ '.' :: tableAndColumnName ++ '_' :: decimal blockIndex ++ '_' :: decimal loadSize ++
    '_' :: decimal loadOffset

inductive Part where
  | data
  | nullMask
deriving DecidableEq, Repr

/-- what the loading functions of the dispatcher append to the column's name -/
def Part.suffix : Part → Text
  | .data => []
  | .nullMask => NULL_SUFFIX

/-- a request to the cache, as the loading functions of the dispatcher make it -/
structure Request where
  databaseName : Text
  tableName : Text
  columnName : Text
  part : Part
  blockIndex : ℤ
  loadSize : ℤ
  loadOffset : ℤ
deriving DecidableEq, Repr

/-- `table.column`, with the suffix of a null mask -/
def Request.tableAndColumnName (r : Request) : Text := r.tableName ++ '.' :: r.columnName ++ r.part.suffix

def Request.key (r : Request) : Text :=
  columnBlock r.databaseName r.tableAndColumnName r.blockIndex r.loadSize r.loadOffset

/-! ## The numbers -/

theorem decimal_ne_underscore (z : ℤ) : '_' ∉ decimal z := by
  intro h
  exact absurd (mem_decimal h) (by decide)

/-- The last three underscores of a key stand before its numbers. -/
theorem columnBlock_inj {d d' t t' : Text} {b b' s s' o o' : ℤ} :
    columnBlock d t b s o = columnBlock d' t' b' s' o' ↔
      d ++ '.' :: t = d' ++ '.' :: t' ∧ b = b' ∧ s = s' ∧ o = o' := by
  constructor
  · intro h
    obtain ⟨h, ho⟩ := (Separated.cut_last (decimal_ne_underscore o) (decimal_ne_underscore o')).1 h
    obtain ⟨h, hs⟩ := (Separated.cut_last (decimal_ne_underscore s) (decimal_ne_underscore s')).1 h
    obtain ⟨h, hb⟩ := (Separated.cut_last (decimal_ne_underscore b) (decimal_ne_underscore b')).1 h
    exact ⟨h, decimal_inj hb, decimal_inj hs, decimal_inj ho⟩
  · rintro ⟨h, rfl, rfl, rfl⟩
    simp only [columnBlock, h]

/-! ## The names -/

/-- database, table and column (with its suffix) of a request -/
structure Names where
  database : Text
  table : Text
  column : Text
deriving DecidableEq, Repr

/-- what stands before the numbers of a key -/
def Names.full (n : Names) : Text := n.database ++ '.' :: (n.table ++ '.' :: n.column)

/-- one dotted text cut into database, table and column at two different pairs of dots: `a` cuts earlier than `b` -/
inductive Regrouped : Names → Names → Prop
  | column (d t u c : Text) : Regrouped ⟨d, t, u ++ '.' :: c⟩ ⟨d, t ++ '.' :: u, c⟩
  | database (d u t c : Text) : Regrouped ⟨d, u ++ '.' :: t, c⟩ ⟨d ++ '.' :: u, t, c⟩
  | apart (d t u t' c : Text) : Regrouped ⟨d, t, u ++ '.' :: (t' ++ '.' :: c)⟩ ⟨d ++ '.' :: (t ++ '.' :: u), t', c⟩
  | next (d t t' c : Text) : Regrouped ⟨d, t, t' ++ '.' :: c⟩ ⟨d ++ '.' :: t, t', c⟩
  | within (d u t w c : Text) : Regrouped ⟨d, u ++ '.' :: (t ++ '.' :: w), c⟩ ⟨d ++ '.' :: u, t, w ++ '.' :: c⟩
  | across (d u v w c : Text) : Regrouped ⟨d, u ++ '.' :: v, w ++ '.' :: c⟩ ⟨d ++ '.' :: u, v ++ '.' :: w, c⟩

theorem Regrouped.full_eq {a b : Names} (h : Regrouped a b) : a.full = b.full := by
  cases h <;> simp [Names.full]

/-- a regrouping changes the database or the table -/
theorem Regrouped.ne {a b : Names} (h : Regrouped a b) : ¬ (a.database = b.database ∧ a.table = b.table) := by
  cases h <;> simp

/-- the cases in which the second database is the longer one -/
theorem regrouped_of_longer {d t c u t' c' : Text} (h : t ++ '.' :: c = u ++ '.' :: (t' ++ '.' :: c')) :
    Regrouped ⟨d, t, c⟩ ⟨d ++ '.' :: u, t', c'⟩ := by
  rcases Separated.cut_iff.1 h with ⟨rfl, rfl⟩ | ⟨v, rfl, rfl⟩ | ⟨v, rfl, hv⟩
  · exact .next d t t' c'
  · exact .apart d t v t' c'
  · rcases Separated.cut_iff.1 hv with ⟨rfl, rfl⟩ | ⟨w, rfl, rfl⟩ | ⟨w, rfl, rfl⟩
    · exact .database d u t' c'
    · exact .within d u t' w c
    · exact .across d u v w c'

theorem fullName_inj {a b : Names} : a.full = b.full ↔ a = b ∨ Regrouped a b ∨ Regrouped b a := by
  obtain ⟨d, t, c⟩ := a
  obtain ⟨d', t', c'⟩ := b
  constructor
  · intro h
    simp only [Names.full] at h
    rcases Separated.cut_iff.1 h with ⟨rfl, ht⟩ | ⟨u, rfl, ht⟩ | ⟨u, rfl, ht⟩
    · rcases Separated.cut_iff.1 ht with ⟨rfl, rfl⟩ | ⟨u, rfl, rfl⟩ | ⟨u, rfl, rfl⟩
      · exact Or.inl rfl
      · exact Or.inr (Or.inl (.column d t u c'))
      · exact Or.inr (Or.inr (.column d t' u c))
    · exact Or.inr (Or.inl (regrouped_of_longer ht))
    · exact Or.inr (Or.inr (regrouped_of_longer ht))
  · rintro (h | h | h)
    · exact congrArg Names.full h
    · exact h.full_eq
    · exact h.full_eq.symm

/-! ## Collisions -/

def Request.names (r : Request) : Names := ⟨r.databaseName, r.tableName, r.columnName ++ r.part.suffix⟩

/-- the data of a column that is named like the null mask of another column of the same table -/
structure Masked (r r' : Request) : Prop where
  database : r.databaseName = r'.databaseName
  table : r.tableName = r'.tableName
  data : r.part = .data
  mask : r'.part = .nullMask
  column : r.columnName = r'.columnName ++ NULL_SUFFIX

structure Collide (r r' : Request) : Prop where
  blockIndex : r.blockIndex = r'.blockIndex
  loadSize : r.loadSize = r'.loadSize
  loadOffset : r.loadOffset = r'.loadOffset
  names : Masked r r' ∨ Masked r' r ∨ Regrouped r.names r'.names ∨ Regrouped r'.names r.names

theorem key_eq_iff {r r' : Request} : r.key = r'.key ↔
    r.names.full = r'.names.full ∧ r.blockIndex = r'.blockIndex ∧ r.loadSize = r'.loadSize ∧
      r.loadOffset = r'.loadOffset := by
  simp [Request.key, columnBlock_inj, Names.full, Request.names, Request.tableAndColumnName]

theorem names_eq_iff {r r' : Request} : r.names = r'.names ↔
    (r.databaseName = r'.databaseName ∧ r.tableName = r'.tableName ∧ r.columnName = r'.columnName ∧
      r.part = r'.part) ∨ Masked r r' ∨ Masked r' r := by
  obtain ⟨d, t, c, part, b, s, o⟩ := r
  obtain ⟨d', t', c', part', b', s', o'⟩ := r'
  constructor
  · intro h
    obtain ⟨rfl, rfl, hcol⟩ : d = d' ∧ t = t' ∧ c ++ part.suffix = c' ++ part'.suffix := by
      simpa [Request.names] using h
    cases part <;> cases part'
    · exact Or.inl ⟨rfl, rfl, by simpa [Part.suffix] using hcol, rfl⟩
    · exact Or.inr (Or.inl ⟨rfl, rfl, rfl, rfl, by simpa [Part.suffix] using hcol⟩)
    · exact Or.inr (Or.inr ⟨rfl, rfl, rfl, rfl, by simpa [Part.suffix] using hcol.symm⟩)
    · exact Or.inl ⟨rfl, rfl, List.append_cancel_right hcol, rfl⟩
  · rintro (⟨hd, ht, hc, hp⟩ | ⟨hd, ht, hp, hp', hc⟩ | ⟨hd, ht, hp, hp', hc⟩)
    · simp_all [Request.names]
    · simp_all [Request.names, Part.suffix]
    · simp_all [Request.names, Part.suffix]

theorem Collide.key_eq {r r' : Request} (h : Collide r r') : r.key = r'.key := by
  refine key_eq_iff.2 ⟨fullName_inj.2 ?_, h.blockIndex, h.loadSize, h.loadOffset⟩
  rcases h.names with h | h | h | h
  · exact Or.inl (names_eq_iff.2 (Or.inr (Or.inl h)))
  · exact Or.inl (names_eq_iff.2 (Or.inr (Or.inr h)))
  · exact Or.inr (Or.inl h)
  · exact Or.inr (Or.inr h)

theorem Collide.ne {r r' : Request} (h : Collide r r') : r ≠ r' := by
  rintro rfl
  rcases h.names with h | h | h | h
  · exact absurd (h.data.symm.trans h.mask) (by decide)
  · exact absurd (h.data.symm.trans h.mask) (by decide)
  · exact h.ne ⟨rfl, rfl⟩
  · exact h.ne ⟨rfl, rfl⟩

theorem key_inj_or_collide {r r' : Request} (h : r.key = r'.key) : r = r' ∨ Collide r r' := by
  obtain ⟨hfull, hb, hs, ho⟩ := key_eq_iff.1 h
  rcases fullName_inj.1 hfull with hnames | hnames
  · rcases names_eq_iff.1 hnames with ⟨hd, ht, hc, hp⟩ | hm | hm
    · left
      obtain ⟨d, t, c, part, b, s, o⟩ := r
      simp_all
    · exact Or.inr ⟨hb, hs, ho, Or.inl hm⟩
    · exact Or.inr ⟨hb, hs, ho, Or.inr (Or.inl hm)⟩
  · exact Or.inr ⟨hb, hs, ho, Or.inr (Or.inr hnames)⟩

end QikkDB.CacheKey

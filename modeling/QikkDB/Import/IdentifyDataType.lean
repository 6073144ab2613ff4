/-
CSV type inference (CSVDataImporter.cpp, `IdentifyDataType` and the conversions of `ParseAndImport`; PointFactory.cpp,
`FromWkt`).

Each value gets the first type whose test it passes, and the type of the column is a running maximum over the enumeration
DataType, in which COLUMN_INT8_T comes last, with two rules for points and polygons in front.

- std::stoi, std::stoll, std::stof, std::stod, the stream operators and ComplexPolygonFactory::FromWkt are parameters;
- PointFactory::FromWkt erases from its npos-th character if no closing brace is behind the opening one (`undefined`).

Results:
- `maxType_perm`, `accepts_maxType`: without Booleans the type is the least one that converts all values.
- `inferred_iff`: the type converts all values and does not depend on their order iff no text has its braces the wrong
  way round, and the values are all Booleans, or none is, or one is and the others are all points or all polygons.
-/
import Mathlib.Tactic
import QikkDB.Core.Element
import QikkDB.Lib.Joining
import QikkDB.Lib.Numeral
import QikkDB.Lib.Traverse

namespace QikkDB.CSVDataImporter

abbrev Text := List UInt8

/-- the column types of the enumeration DataType -/
inductive DataType where
  | int
  | long
  | float
  | double
  | point
  | polygon
  | string
  | int8
deriving DecidableEq, Repr, Inhabited

/-- the value in the enumeration -/
def DataType.val : DataType → ℕ
  | .int => 8
  | .long => 9
  | .float => 10
  | .double => 11
  | .point => 12
  | .polygon => 13
  | .string => 14
  | .int8 => 15

inductive Thrown where
  /-- std::out_of_range -/
  | outOfRange
  /-- std::invalid_argument -/
  | invalidArgument
  /-- no exception: the standard does not say what happens -/
  | undefined
deriving DecidableEq, Repr

/-- the conversions of the standard library, with the number of characters they take, and ComplexPolygonFactory::FromWkt,
which throws std::invalid_argument only -/
structure Conversions (F D P Q : Type) where
  stoi : Text → Except Thrown (Int32T × ℕ)
  stoll : Text → Except Thrown (Int64T × ℕ)
  stof : Text → Except Thrown (F × ℕ)
  stod : Text → Except Thrown (D × ℕ)
  /-- get_time with the format of ParseAndImport, and mktime -/
  epochTime : Text → Int64T
  /-- wktInput >> latitude >> longitude, and the point with them -/
  coordinates : Text → Option P
  polygonFromWkt : Text → Option Q

variable {F D P Q : Type} (c : Conversions F D P Q)

/-- boost::algorithm::to_lower -/
def lowerCase (s : Text) : Text := s.map fun b => if 65 ≤ b ∧ b ≤ 90 then b + 32 else b

/-- "true" -/
def trueText : Text := [116, 114, 117, 101]

/-- "false" -/
def falseText : Text := [102, 97, 108, 115, 101]

def isBoolean (s : Text) : Bool := lowerCase s = trueText || lowerCase s = falseText

/-- no exception, and s.length() == position -/
def takesWhole {α : Type} (s : Text) : Except Thrown (α × ℕ) → Bool
  | .ok (_, position) => s.length = position
  | .error _ => false

/-- what is behind the first opening brace -/
def behindBrace (s : Text) : Text := (s.dropWhile (· ≠ 40)).tail

/-- PointFactory::FromWkt -/
def pointFromWkt (wktPoint : Text) : Except Thrown P :=
  if 40 ∉ wktPoint ∨ 41 ∉ wktPoint then .error .invalidArgument
  else if 41 ∉ behindBrace wktPoint then .error .undefined
  else
    match c.coordinates ((behindBrace wktPoint).takeWhile (· ≠ 41)) with
    | some point => .ok point
    | none => .error .invalidArgument

/-- the end of the loop body of IdentifyDataType -/
def geometryType (s : Text) : Except Thrown DataType :=
  match pointFromWkt c s with
  | .ok _ => .ok .point
  | .error .invalidArgument => .ok (if (c.polygonFromWkt s).isSome then .polygon else .string)
  | .error e => .error e

/-- the loop body of IdentifyDataType -/
def valueType (s : Text) : Except Thrown DataType :=
  if isBoolean s then .ok .int8
  else if takesWhole s (c.stoi s) then .ok .int
  else if takesWhole s (c.stoll s) then .ok .long
  else if takesWhole s (c.stof s) then .ok .float
  else if takesWhole s (c.stod s) then .ok .double
  else geometryType c s

/-- the next maxType -/
def wider (maxType t : DataType) : DataType :=
  if (t = .point ∧ maxType ≠ .point) ∨ (t ≠ .point ∧ maxType = .point) then .string
  else if (t = .polygon ∧ maxType ≠ .polygon) ∨ (t ≠ .polygon ∧ maxType = .polygon) then .string
  else if t.val > maxType.val then t
  else maxType

def maxType : List DataType → DataType
  | [] => .string
  | t :: ts => (t :: ts).foldl wider t

def identifyDataType (columnValues : List Text) : Except Thrown DataType := do
  let dataTypes ← columnValues.mapM (valueType c)
  pure (maxType dataTypes)

/-- what the vector of a column holds -/
abbrev DataType.Elem (F D P Q : Type) : DataType → Type
  | .int => Int32T
  | .long => Int64T
  | .float => F
  | .double => D
  | .point => P
  | .polygon => Q
  | .string => Text
  | .int8 => Int8T

/-- the branch of ParseAndImport for a type; the std::any stays empty for a Boolean that is neither true nor false -/
def convert : (t : DataType) → Text → Except Thrown (Option (t.Elem F D P Q))
  | .int8, s => .ok (if lowerCase s = trueText then some 1 else if lowerCase s = falseText then some 0 else none)
  | .int, s => (fun r => some r.1) <$> c.stoi s
  | .long, s => if 45 ∈ s ∧ 58 ∈ s then .ok (some (c.epochTime s)) else (fun r => some r.1) <$> c.stoll s
  | .float, s => (fun r => some r.1) <$> c.stof s
  | .double, s => (fun r => some r.1) <$> c.stod s
  | .point, s => (fun p => some p) <$> pointFromWkt c s
  | .polygon, s =>
    match c.polygonFromWkt s with
    | some q => .ok (some q)
    | none => .error .invalidArgument
  | .string, s => .ok (some s)

/-! ## What the inference promises -/

/-- what std::stoi takes to its end std::stoll does, and so on -/
structure Conversions.Standard : Prop where
  stoll : ∀ s, takesWhole s (c.stoi s) = true → takesWhole s (c.stoll s) = true
  stof : ∀ s, takesWhole s (c.stoll s) = true → takesWhole s (c.stof s) = true
  stod : ∀ s, takesWhole s (c.stof s) = true → takesWhole s (c.stod s) = true

def Converts (t : DataType) (s : Text) : Prop := ∃ v, convert c t s = .ok (some v)

/-- one type, in any order of the values, whose branch converts them all -/
def Inferred (values : List Text) : Prop :=
  ∃ t, identifyDataType c values = .ok t ∧ (∀ s ∈ values, Converts c t s)
    ∧ ∀ other, values.Perm other → identifyDataType c other = .ok t

/-- neither a Boolean nor a number -/
def IsText (s : Text) : Prop :=
  isBoolean s = false ∧ takesWhole s (c.stoi s) = false ∧ takesWhole s (c.stoll s) = false
    ∧ takesWhole s (c.stof s) = false ∧ takesWhole s (c.stod s) = false

/-- braces, but no closing one behind the first opening one -/
def Misbraced (s : Text) : Prop := 40 ∈ s ∧ 41 ∈ s ∧ 41 ∉ behindBrace s

def IsPoint (s : Text) : Prop := IsText c s ∧ ∃ p, pointFromWkt c s = .ok p

def IsPolygon (s : Text) : Prop :=
  IsText c s ∧ pointFromWkt c s = .error .invalidArgument ∧ (c.polygonFromWkt s).isSome = true

/-- no Boolean, nothing else, or one among points or among polygons -/
def Regular (values : List Text) : Prop :=
  (∀ s ∈ values, isBoolean s = false) ∨ (∀ s ∈ values, isBoolean s = true)
    ∨ values.countP isBoolean = 1
      ∧ ((∀ s ∈ values, isBoolean s = false → IsPoint c s) ∨ ∀ s ∈ values, isBoolean s = false → IsPolygon c s)

/-! ## The order of generality -/

/-- the branch of a type converts the values that have another one -/
def DataType.accepts (t s : DataType) : Prop := t = .string ∨ t = s ∨ (s.val ≤ t.val ∧ t.val ≤ 11)

instance (t s : DataType) : Decidable (t.accepts s) := by
  unfold DataType.accepts
  infer_instance

/-- without Booleans the running maximum is a least upper bound -/
theorem wider_join : Joining.JoinOn (fun s t : DataType => t.accepts s) wider (fun t => t ≠ .int8) where
  refl := fun t => .inr (.inl rfl)
  antisymm := by
    intro s t hst hts
    cases s <;> cases t <;> revert hst hts <;> decide
  mem := by
    intro s t hs ht
    cases s <;> cases t <;> revert hs ht <;> decide
  le_iff := by
    intro s t hs ht u
    cases s <;> cases t <;> revert hs ht <;> cases u <;> decide

variable {types other : List DataType}

theorem maxType_eq (h : types ≠ []) : ∃ t ∈ types, maxType types = types.foldl wider t := by
  cases types with
  | nil => exact absurd rfl h
  | cons t ts => exact ⟨t, List.mem_cons_self, rfl⟩

theorem accepts_maxType (h : ∀ t ∈ types, t ≠ .int8) {t : DataType} (ht : t ∈ types) : (maxType types).accepts t := by
  obtain ⟨t₀, ht₀, heq⟩ := maxType_eq (List.ne_nil_of_mem ht)
  rw [heq]
  exact wider_join.le_foldl (h t₀ ht₀) h ht

theorem maxType_perm (h : ∀ t ∈ types, t ≠ .int8) (hp : types.Perm other) : maxType types = maxType other := by
  by_cases hnil : types = []
  · rw [hnil] at hp ⊢
    rw [List.nil_perm.1 hp]
  · obtain ⟨t, ht, heq⟩ := maxType_eq hnil
    obtain ⟨t', ht', heq'⟩ := maxType_eq fun hnil' => hnil (List.perm_nil.1 (hnil' ▸ hp))
    rw [heq, heq']
    exact wider_join.foldl_perm h hp ht ht'

/-! ## Booleans -/

theorem wider_int8 (t : DataType) : wider t .int8 = if t = .point ∨ t = .polygon then .string else .int8 := by
  cases t <;> decide

/-- only points give a point, and only polygons a polygon -/
theorem eq_of_wider_eq {g s t : DataType} (hg : g = .point ∨ g = .polygon) (h : wider s t = g) : s = g ∧ t = g := by
  rcases hg with rfl | rfl <;> cases s <;> cases t <;> revert h <;> decide

theorem eq_of_foldl_eq {g s : DataType} (hg : g = .point ∨ g = .polygon) (h : types.foldl wider s = g) :
    s = g ∧ ∀ t ∈ types, t = g := by
  induction types generalizing s with
  | nil => exact ⟨h, by simp⟩
  | cons t ts ih =>
    obtain ⟨hst, hts⟩ := ih h
    obtain ⟨rfl, rfl⟩ := eq_of_wider_eq hg hst
    exact ⟨rfl, List.forall_mem_cons.2 ⟨rfl, hts⟩⟩

theorem foldl_const {s : DataType} (h : ∀ t ∈ types, wider s t = s) : types.foldl wider s = s := by
  induction types with
  | nil => rfl
  | cons t ts ih =>
    rw [List.foldl_cons, h t List.mem_cons_self]
    exact ih fun t' ht' => h t' (List.mem_cons_of_mem t ht')

/-- a Boolean behind other values -/
theorem maxType_append_int8 (h : types ≠ []) :
    maxType (types ++ [.int8]) = .int8 ∨ (∀ t ∈ types, t = .point) ∨ ∀ t ∈ types, t = .polygon := by
  obtain ⟨t, ts, rfl⟩ := List.exists_cons_of_ne_nil h
  have hlast : maxType (t :: ts ++ [.int8]) = wider ((t :: ts).foldl wider t) .int8 := by
    change (t :: ts ++ [DataType.int8]).foldl wider t = _
    rw [List.foldl_append]
    rfl
  rw [hlast, wider_int8]
  split_ifs with hgeo
  · rcases hgeo with hpoint | hpolygon
    · exact .inr (.inl (eq_of_foldl_eq (.inl rfl) hpoint).2)
    · exact .inr (.inr (eq_of_foldl_eq (.inr rfl) hpolygon).2)
  · exact .inl rfl

/-- one Boolean anywhere among points or polygons -/
theorem maxType_one_int8 {g : DataType} (hg : g = .point ∨ g = .polygon) {before after : List DataType}
    (hbefore : ∀ t ∈ before, t = g) (hafter : ∀ t ∈ after, t = g) (hne : before ≠ [] ∨ after ≠ []) :
    maxType (before ++ .int8 :: after) = .string := by
  have hstay : wider g g = g := by rcases hg with rfl | rfl <;> rfl
  have hmix : wider g .int8 = .string ∧ wider .int8 g = .string ∧ wider .string g = .string := by
    rcases hg with rfl | rfl <;> exact ⟨rfl, rfl, rfl⟩
  have hrest : ∀ {l : List DataType}, (∀ t ∈ l, t = g) → l.foldl wider .string = .string := by
    intro l hl
    exact foldl_const fun t ht => by rw [hl t ht]; exact hmix.2.2
  cases before with
  | nil =>
    obtain ⟨t, ts, rfl⟩ := List.exists_cons_of_ne_nil (hne.resolve_left fun h => h rfl)
    obtain ⟨rfl, hts⟩ := List.forall_mem_cons.1 hafter
    change ts.foldl wider (wider .int8 t) = _
    rw [hmix.2.1, hrest hts]
  | cons t ts =>
    obtain ⟨rfl, hts⟩ := List.forall_mem_cons.1 hbefore
    have hgeo : (t :: ts).foldl wider t = t := foldl_const fun s hs => by rw [hbefore s hs]; exact hstay
    change (t :: ts ++ DataType.int8 :: after).foldl wider t = _
    rw [List.foldl_append, hgeo]
    change after.foldl wider (wider t .int8) = _
    rw [hmix.1, hrest hafter]

/-! ## Values and their types -/

variable {c}

theorem pointFromWkt_undefined_iff {s : Text} {e : Thrown} (he : e ≠ .invalidArgument) :
    pointFromWkt c s = .error e ↔ e = .undefined ∧ Misbraced s := by
  unfold pointFromWkt Misbraced
  split_ifs with hbraces hbehind
  · simp only [Except.error.injEq]
    refine ⟨fun h => absurd h.symm he, ?_⟩
    rintro ⟨-, hopen, hclose, -⟩
    rcases hbraces with h | h
    · exact absurd hopen h
    · exact absurd hclose h
  · simp only [hbehind, not_true, and_false, iff_false]
    split <;> simp [he.symm]
  · push Not at hbraces
    simp [hbraces, hbehind, eq_comm]

theorem valueType_of_isText {s : Text} (h : IsText c s) : valueType c s = geometryType c s := by
  obtain ⟨hbool, hi, hl, hf, hd⟩ := h
  simp [valueType, hbool, hi, hl, hf, hd]

/-- a text is a point, a polygon or a string -/
theorem geometryType_val {s : Text} {t : DataType} (h : geometryType c s = .ok t) : 12 ≤ t.val ∧ t ≠ .int8 := by
  unfold geometryType at h
  split at h
  · obtain rfl := Except.ok.inj h
    decide
  · split_ifs at h
    all_goals
      obtain rfl := Except.ok.inj h
      decide
  · cases h

/-- the type of a number -/
theorem valueType_of_not_isText {s : Text} (hbool : isBoolean s = false) (h : ¬ IsText c s) :
    ∃ t, valueType c s = .ok t ∧ t ≠ .int8 ∧ t ≠ .point ∧ t ≠ .polygon := by
  by_contra hnone
  have hne : ∀ t, t ≠ .int8 ∧ t ≠ .point ∧ t ≠ .polygon → valueType c s ≠ .ok t := fun t ht heq => hnone ⟨t, heq, ht⟩
  refine h ⟨hbool, ?_⟩
  have hnum := fun t => hne t
  unfold valueType at hne
  rw [hbool] at hne
  by_cases hi : takesWhole s (c.stoi s) = true
  · exact absurd (by simp [hi]) (hne .int (by decide))
  · by_cases hl : takesWhole s (c.stoll s) = true
    · exact absurd (by simp [hi, hl]) (hne .long (by decide))
    · by_cases hf : takesWhole s (c.stof s) = true
      · exact absurd (by simp [hi, hl, hf]) (hne .float (by decide))
      · by_cases hd : takesWhole s (c.stod s) = true
        · exact absurd (by simp [hi, hl, hf, hd]) (hne .double (by decide))
        · simp only [Bool.not_eq_true] at hi hl hf hd
          exact ⟨hi, hl, hf, hd⟩

theorem valueType_boolean {s : Text} (h : isBoolean s = true) : valueType c s = .ok .int8 := by
  rw [valueType, if_pos h]

/-- only Booleans have the type of the Booleans -/
theorem valueType_int8_iff {s : Text} : valueType c s = .ok .int8 ↔ isBoolean s = true := by
  refine ⟨?_, valueType_boolean⟩
  intro h
  by_contra hbool
  simp only [Bool.not_eq_true] at hbool
  by_cases htext : IsText c s
  · rw [valueType_of_isText htext] at h
    exact (geometryType_val h).2 rfl
  · obtain ⟨t, ht, hne, -, -⟩ := valueType_of_not_isText hbool htext
    rw [h] at ht
    exact hne (Except.ok.inj ht).symm

theorem valueType_geo_iff {s : Text} :
    (valueType c s = .ok .point ↔ IsPoint c s) ∧ (valueType c s = .ok .polygon ↔ IsPolygon c s) := by
  by_cases hbool : isBoolean s = true
  · simp [valueType_boolean hbool, IsPoint, IsPolygon, IsText, hbool]
  · by_cases htext : IsText c s
    · rw [valueType_of_isText htext]
      unfold IsPoint IsPolygon geometryType
      cases pointFromWkt c s with
      | ok p => simp [htext]
      | error e => cases e <;> cases c.polygonFromWkt s <;> simp [htext]
    · simp only [Bool.not_eq_true] at hbool
      obtain ⟨t, ht, -, hpoint, hpolygon⟩ := valueType_of_not_isText hbool htext
      rw [ht]
      simp [IsPoint, IsPolygon, htext, hpoint, hpolygon]

theorem exists_valueType_iff {s : Text} : (∃ t, valueType c s = .ok t) ↔ (IsText c s → ¬ Misbraced s) := by
  by_cases htext : IsText c s
  · rw [valueType_of_isText htext, geometryType]
    have hundefined := pointFromWkt_undefined_iff (c := c) (s := s) (e := .undefined) (by decide)
    have hrange := pointFromWkt_undefined_iff (c := c) (s := s) (e := .outOfRange) (by decide)
    cases hpoint : pointFromWkt c s with
    | ok p => simp_all
    | error e => cases e <;> simp_all
  · refine ⟨fun _ h => absurd h htext, fun _ => ?_⟩
    by_cases hbool : isBoolean s = true
    · exact ⟨.int8, valueType_boolean hbool⟩
    · simp only [Bool.not_eq_true] at hbool
      obtain ⟨t, ht, -⟩ := valueType_of_not_isText hbool htext
      exact ⟨t, ht⟩

/-! ## Conversions -/

theorem converts_int8_iff {s : Text} : Converts c .int8 s ↔ isBoolean s = true := by
  unfold Converts convert isBoolean
  by_cases htrue : lowerCase s = trueText
  · simp [htrue]
  · have hne : falseText ≠ trueText := by decide
    by_cases hfalse : lowerCase s = falseText <;> simp [htrue, hfalse, hne]

theorem map_ok_of_takesWhole {α : Type} {s : Text} {r : Except Thrown (α × ℕ)} (h : takesWhole s r = true) :
    ∃ v, (fun x => some x.1) <$> r = .ok (some v) := by
  cases r with
  | ok x => exact ⟨x.1, rfl⟩
  | error e => simp [takesWhole] at h

/-- what the functions take that were asked before the type was found -/
theorem takesWhole_of_accepts (hc : c.Standard) {s : Text} {k : DataType} (h : valueType c s = .ok k) :
    (k.val ≤ 8 → takesWhole s (c.stoi s) = true) ∧ (k.val ≤ 9 → takesWhole s (c.stoll s) = true)
      ∧ (k.val ≤ 10 → takesWhole s (c.stof s) = true) ∧ (k.val ≤ 11 → takesWhole s (c.stod s) = true) := by
  unfold valueType at h
  split_ifs at h with hbool hi hl hf hd
  · obtain rfl := Except.ok.inj h
    simp [DataType.val]
  · have hll := hc.stoll s hi
    have hff := hc.stof s hll
    exact ⟨fun _ => hi, fun _ => hll, fun _ => hff, fun _ => hc.stod s hff⟩
  · obtain rfl := Except.ok.inj h
    have hff := hc.stof s hl
    exact ⟨by simp [DataType.val], fun _ => hl, fun _ => hff, fun _ => hc.stod s hff⟩
  · obtain rfl := Except.ok.inj h
    exact ⟨by simp [DataType.val], by simp [DataType.val], fun _ => hf, fun _ => hc.stod s hf⟩
  · obtain rfl := Except.ok.inj h
    exact ⟨by simp [DataType.val], by simp [DataType.val], by simp [DataType.val], fun _ => hd⟩
  · have hval := (geometryType_val h).1
    exact ⟨by omega, by omega, by omega, by omega⟩

theorem converts_of_accepts (hc : c.Standard) {s : Text} {k t : DataType} (h : valueType c s = .ok k)
    (ht : t.accepts k) : Converts c t s := by
  obtain ⟨hi, hl, hf, hd⟩ := takesWhole_of_accepts hc h
  have hval : ∀ n, t.val = n → n ≤ 11 → k.val ≤ n := by
    intro n hn hle
    rcases ht with rfl | rfl | ⟨hkt, -⟩
    · subst hn
      exact absurd hle (by decide)
    · exact hn.le
    · exact hn ▸ hkt
  have hgeo : 11 < t.val → t ≠ .string → t = k := by
    intro hlt hstring
    rcases ht with rfl | rfl | ⟨-, hle⟩
    · exact absurd rfl hstring
    · rfl
    · omega
  unfold Converts
  cases t with
  | string => exact ⟨_, rfl⟩
  | int => exact map_ok_of_takesWhole (hi (hval 8 rfl (by decide)))
  | long =>
    simp only [convert]
    split_ifs
    · exact ⟨_, rfl⟩
    · exact map_ok_of_takesWhole (hl (hval 9 rfl (by decide)))
  | float => exact map_ok_of_takesWhole (hf (hval 10 rfl (by decide)))
  | double => exact map_ok_of_takesWhole (hd (hval 11 rfl (by decide)))
  | point =>
    obtain rfl := hgeo (by decide) (by decide)
    obtain ⟨-, p, hp⟩ := valueType_geo_iff.1.1 h
    simp only [convert, hp]
    exact ⟨_, rfl⟩
  | polygon =>
    obtain rfl := hgeo (by decide) (by decide)
    obtain ⟨-, -, hq⟩ := valueType_geo_iff.2.1 h
    obtain ⟨q, hq⟩ := Option.isSome_iff_exists.1 hq
    simp only [convert, hq]
    exact ⟨_, rfl⟩
  | int8 =>
    obtain rfl := hgeo (by decide) (by decide)
    exact converts_int8_iff.2 (valueType_int8_iff.1 h)

/-! ## The inferred type -/

variable {values : List Text} {k : Text → DataType}

theorem identifyDataType_ok (hk : ∀ s ∈ values, valueType c s = .ok (k s)) :
    identifyDataType c values = .ok (maxType (values.map k)) := by
  rw [identifyDataType, Traverse.mapM_ok hk]
  rfl

theorem inferred_iff_of_types (hk : ∀ s ∈ values, valueType c s = .ok (k s)) :
    Inferred c values ↔ (∀ s ∈ values, Converts c (maxType (values.map k)) s)
      ∧ ∀ other, values.Perm other → maxType (other.map k) = maxType (values.map k) := by
  have hother : ∀ other, values.Perm other → identifyDataType c other = .ok (maxType (other.map k)) :=
    fun other hp => identifyDataType_ok fun s hs => hk s (hp.mem_iff.2 hs)
  constructor
  · rintro ⟨t, ht, hconv, hperm⟩
    rw [identifyDataType_ok hk] at ht
    obtain rfl := Except.ok.inj ht
    refine ⟨hconv, fun other hp => ?_⟩
    have h := hperm other hp
    rw [hother other hp] at h
    exact Except.ok.inj h
  · rintro ⟨hconv, hperm⟩
    exact ⟨_, identifyDataType_ok hk, hconv, fun other hp => by rw [hother other hp, hperm other hp]⟩

theorem isBoolean_iff_of_types (hk : ∀ s ∈ values, valueType c s = .ok (k s)) {s : Text} (hs : s ∈ values) :
    isBoolean s = true ↔ k s = .int8 := by
  rw [← valueType_int8_iff (c := c), hk s hs, Except.ok.injEq]

/-- one Boolean among points or polygons, in any order -/
theorem maxType_one_boolean (hk : ∀ s ∈ values, valueType c s = .ok (k s)) (hcount : values.countP isBoolean = 1)
    {g : DataType} (hg : g = .point ∨ g = .polygon) (hgeo : ∀ s ∈ values, isBoolean s = false → k s = g)
    (hne : ∃ s ∈ values, isBoolean s = false) : maxType (values.map k) = .string := by
  obtain ⟨b, hb, hbool⟩ := List.countP_pos_iff.1 (by omega : 0 < values.countP isBoolean)
  obtain ⟨before, after, rfl⟩ := List.append_of_mem hb
  have hcounts : before.countP isBoolean = 0 ∧ after.countP isBoolean = 0 := by
    rw [List.countP_append, List.countP_cons_of_pos hbool] at hcount
    omega
  have hrest : ∀ s ∈ before ++ after, isBoolean s = false := by
    intro s hs
    rcases List.mem_append.1 hs with hs | hs
    · simpa using List.countP_eq_zero.1 hcounts.1 s hs
    · simpa using List.countP_eq_zero.1 hcounts.2 s hs
  have htypes : ∀ s ∈ before ++ after, k s = g := by
    intro s hs
    refine hgeo s ?_ (hrest s hs)
    rcases List.mem_append.1 hs with hs | hs
    · exact List.mem_append_left _ hs
    · exact List.mem_append_right _ (List.mem_cons_of_mem b hs)
  rw [List.map_append, List.map_cons, (isBoolean_iff_of_types hk hb).1 hbool]
  refine maxType_one_int8 hg ?_ ?_ ?_
  · rintro t ht
    obtain ⟨s, hs, rfl⟩ := List.mem_map.1 ht
    exact htypes s (List.mem_append_left _ hs)
  · rintro t ht
    obtain ⟨s, hs, rfl⟩ := List.mem_map.1 ht
    exact htypes s (List.mem_append_right _ hs)
  · obtain ⟨s, hs, hfalse⟩ := hne
    rw [← not_and_or, List.map_eq_nil_iff, List.map_eq_nil_iff]
    rintro ⟨rfl, rfl⟩
    obtain rfl := List.mem_singleton.1 hs
    rw [hbool] at hfalse
    exact absurd hfalse (by decide)

theorem inferred_of_all_booleans (hk : ∀ s ∈ values, valueType c s = .ok (k s)) (hall : ∀ s ∈ values, isBoolean s = true) :
    Inferred c values := by
  rw [inferred_iff_of_types hk]
  have hmax : ∀ other, values.Perm other → other ≠ [] → maxType (other.map k) = .int8 := by
    intro other hp hne
    have hints : ∀ t ∈ other.map k, t = .int8 := by
      intro t ht
      obtain ⟨s, hs, rfl⟩ := List.mem_map.1 ht
      exact (isBoolean_iff_of_types hk (hp.mem_iff.2 hs)).1 (hall s (hp.mem_iff.2 hs))
    obtain ⟨t, ht, heq⟩ := maxType_eq (mt List.map_eq_nil_iff.1 hne)
    rw [heq, hints t ht]
    exact foldl_const fun s hs => by rw [hints s hs]; rfl
  rcases eq_or_ne values [] with rfl | hne
  · exact ⟨by simp, fun other hp => by rw [List.nil_perm.1 hp]⟩
  · refine ⟨fun s hs => ?_, fun other hp => ?_⟩
    · rw [hmax values (List.Perm.refl _) hne]
      exact converts_int8_iff.2 (hall s hs)
    · rw [hmax values (List.Perm.refl _) hne, hmax other hp fun h => hne (List.perm_nil.1 (h ▸ hp))]

theorem inferred_of_regular (hc : c.Standard) (hk : ∀ s ∈ values, valueType c s = .ok (k s)) (h : Regular c values) :
    Inferred c values := by
  have hkp : ∀ {other}, values.Perm other → ∀ s ∈ other, valueType c s = .ok (k s) :=
    fun hp s hs => hk s (hp.mem_iff.2 hs)
  rw [inferred_iff_of_types hk]
  rcases h with hnone | hall | ⟨hcount, hgeo⟩
  · have hne : ∀ t ∈ values.map k, t ≠ .int8 := by
      intro t ht
      obtain ⟨s, hs, rfl⟩ := List.mem_map.1 ht
      rw [Ne, ← isBoolean_iff_of_types hk hs, hnone s hs]
      decide
    exact ⟨fun s hs => converts_of_accepts hc (hk s hs) (accepts_maxType hne (List.mem_map_of_mem hs)),
      fun other hp => (maxType_perm hne (hp.map k)).symm⟩
  · exact (inferred_iff_of_types hk).1 (inferred_of_all_booleans hk hall)
  · by_cases hall : ∀ s ∈ values, isBoolean s = true
    · exact (inferred_iff_of_types hk).1 (inferred_of_all_booleans hk hall)
    · push Not at hall
      simp only [Bool.not_eq_true] at hall
      have hsame : ∃ g, (g = .point ∨ g = .polygon) ∧ ∀ s ∈ values, isBoolean s = false → k s = g := by
        rcases hgeo with hpoint | hpolygon
        · refine ⟨.point, .inl rfl, fun s hs hfalse => ?_⟩
          exact Except.ok.inj ((hk s hs).symm.trans (valueType_geo_iff.1.2 (hpoint s hs hfalse)))
        · refine ⟨.polygon, .inr rfl, fun s hs hfalse => ?_⟩
          exact Except.ok.inj ((hk s hs).symm.trans (valueType_geo_iff.2.2 (hpolygon s hs hfalse)))
      obtain ⟨g, hg, hsame⟩ := hsame
      have hstring : ∀ other, values.Perm other → maxType (other.map k) = .string := by
        intro other hp
        obtain ⟨s, hs, hfalse⟩ := hall
        exact maxType_one_boolean (hkp hp) (hp.countP_eq isBoolean ▸ hcount) hg
          (fun s hs => hsame s (hp.mem_iff.2 hs)) ⟨s, hp.mem_iff.1 hs, hfalse⟩
      refine ⟨fun s hs => ?_, fun other hp => ?_⟩
      · rw [hstring values (List.Perm.refl _)]
        exact ⟨s, rfl⟩
      · rw [hstring values (List.Perm.refl _), hstring other hp]

/-- a Boolean behind other values shows what they are -/
theorem regular_of_inferred (hk : ∀ s ∈ values, valueType c s = .ok (k s)) (h : Inferred c values) :
    Regular c values := by
  rw [inferred_iff_of_types hk] at h
  obtain ⟨hconv, hperm⟩ := h
  by_cases hnone : ∀ s ∈ values, isBoolean s = false
  · exact .inl hnone
  by_cases hall : ∀ s ∈ values, isBoolean s = true
  · exact .inr (.inl hall)
  push Not at hnone hall
  obtain ⟨b, hb, hbool⟩ := hnone
  simp only [ne_eq, Bool.not_eq_false] at hbool
  obtain ⟨x, hx, hfalse⟩ := hall
  have hp : values.Perm (values.erase b ++ [b]) :=
    (List.perm_cons_erase hb).trans (List.perm_append_singleton b _).symm
  have hrest : ∀ s ∈ values.erase b, s ∈ values := fun s hs => List.mem_of_mem_erase hs
  have hxrest : x ∈ values.erase b := (List.mem_erase_of_ne (by rintro rfl; exact hfalse hbool)).2 hx
  have hlast := hperm _ hp
  rw [List.map_append, List.map_singleton, (isBoolean_iff_of_types hk hb).1 hbool] at hlast
  have hnil : (values.erase b).map k ≠ [] := by
    rw [Ne, List.map_eq_nil_iff]
    exact List.ne_nil_of_mem hxrest
  have hcount : ∀ g, g ≠ .int8 → (∀ t ∈ (values.erase b).map k, t = g) → values.countP isBoolean = 1 := by
    intro g hg hgeo
    rw [hp.countP_eq, List.countP_append, List.countP_singleton, if_pos hbool]
    have hzero : (values.erase b).countP isBoolean = 0 := by
      rw [List.countP_eq_zero]
      intro s hs hs'
      exact hg ((hgeo _ (List.mem_map_of_mem hs)).symm.trans ((isBoolean_iff_of_types hk (hrest s hs)).1 hs'))
    omega
  have hgeo : ∀ g, (∀ t ∈ (values.erase b).map k, t = g) → ∀ s ∈ values, isBoolean s = false → valueType c s = .ok g := by
    intro g hg s hs hs'
    have hmem : s ∈ values.erase b := (List.mem_erase_of_ne (by rintro rfl; rw [hbool] at hs'; cases hs')).2 hs
    rw [hk s hs, hg _ (List.mem_map_of_mem hmem)]
  rcases maxType_append_int8 hnil with hint8 | hpoint | hpolygon
  · rw [← hlast, hint8] at hconv
    exact absurd (converts_int8_iff.1 (hconv x hx)) hfalse
  · exact .inr (.inr ⟨hcount .point (by decide) hpoint,
      .inl fun s hs hs' => valueType_geo_iff.1.1 (hgeo .point hpoint s hs hs')⟩)
  · exact .inr (.inr ⟨hcount .polygon (by decide) hpolygon,
      .inr fun s hs hs' => valueType_geo_iff.2.1 (hgeo .polygon hpolygon s hs hs')⟩)

theorem inferred_iff (hc : c.Standard) (values : List Text) :
    Inferred c values ↔ (∀ s ∈ values, IsText c s → ¬ Misbraced s) ∧ Regular c values := by
  have hdefined : (∃ k : Text → DataType, ∀ s ∈ values, valueType c s = .ok (k s))
      ↔ ∀ s ∈ values, IsText c s → ¬ Misbraced s := by
    constructor
    · rintro ⟨k, hk⟩ s hs
      exact exists_valueType_iff.1 ⟨k s, hk s hs⟩
    · intro h
      choose! k hk using fun s hs => exists_valueType_iff.2 (h s hs)
      exact ⟨k, hk⟩
  constructor
  · intro h
    obtain ⟨t, ht, -⟩ := id h
    have hok : ∀ s ∈ values, ∃ t, valueType c s = .ok t := by
      refine Traverse.exists_mapM_ok_iff.1 ?_
      cases hmap : values.mapM (valueType c) with
      | ok types => exact ⟨types, rfl⟩
      | error e => simp [identifyDataType, hmap, bind, Except.bind] at ht
    choose! k hk using hok
    exact ⟨hdefined.1 ⟨k, hk⟩, regular_of_inferred hk h⟩
  · rintro ⟨hbraces, hregular⟩
    obtain ⟨k, hk⟩ := hdefined.2 hbraces
    exact inferred_of_regular hc hk hregular

/-! ## Values that are inferred and values that are not -/

/-- the integers of the standard library's functions, each with its range; a float is an integer here -/
def decimalPrefix (inRange : ℤ → Bool) (s : Text) : Except Thrown (ℤ × ℕ) :=
  match Numeral.front s with
  | none => .error .invalidArgument
  | some z =>
    let behindBlanks := s.dropWhile Numeral.isSpace
    let behindSign := (Numeral.signed behindBlanks).2
    if inRange z then .ok (z, s.length - (behindSign.dropWhile Numeral.isDigit).length) else .error .outOfRange

def toWidth (w : ℕ) (r : ℤ × ℕ) : IntN w × ℕ := (IntN.wrap w r.1, r.2)

def decimals : Conversions ℤ ℤ (ℤ × ℤ) Unit where
  stoi s := toWidth 32 <$> decimalPrefix (fun z => -2 ^ 31 ≤ z ∧ z < 2 ^ 31) s
  stoll s := toWidth 64 <$> decimalPrefix (fun z => -2 ^ 63 ≤ z ∧ z < 2 ^ 63) s
  stof s := decimalPrefix (fun z => -2 ^ 127 ≤ z ∧ z < 2 ^ 127) s
  stod s := decimalPrefix (fun z => -2 ^ 1023 ≤ z ∧ z < 2 ^ 1023) s
  epochTime _ := 0
  coordinates _ := none
  polygonFromWkt _ := none

theorem takesWhole_toWidth (w : ℕ) (s : Text) (r : Except Thrown (ℤ × ℕ)) :
    takesWhole s (toWidth w <$> r) = takesWhole s r := by
  cases r <;> rfl

theorem takesWhole_decimalPrefix {f g : ℤ → Bool} (hfg : ∀ z, f z = true → g z = true) (s : Text)
    (h : takesWhole s (decimalPrefix f s) = true) : takesWhole s (decimalPrefix g s) = true := by
  unfold decimalPrefix at h ⊢
  cases hfront : Numeral.front s with
  | none => simp [hfront, takesWhole] at h
  | some z =>
    simp only [hfront] at h ⊢
    split_ifs at h with hz
    · rwa [if_pos (hfg z hz)]
    · cases h

theorem decimals_standard : decimals.Standard where
  stoll s h := by
    simp only [decimals] at h ⊢
    rw [takesWhole_toWidth] at h ⊢
    refine takesWhole_decimalPrefix (fun z hz => ?_) s h
    simp only [decide_eq_true_eq] at hz ⊢
    omega
  stof s h := by
    simp only [decimals] at h ⊢
    rw [takesWhole_toWidth] at h
    refine takesWhole_decimalPrefix (fun z hz => ?_) s h
    simp only [decide_eq_true_eq] at hz ⊢
    omega
  stod s h := by
    simp only [decimals] at h ⊢
    refine takesWhole_decimalPrefix (fun z hz => ?_) s h
    simp only [decide_eq_true_eq] at hz ⊢
    omega

/-- the values 7 and -3000000000 -/
theorem inferred_numbers : Inferred decimals [[55], [45, 51, 48, 48, 48, 48, 48, 48, 48, 48, 48]] := by
  refine (inferred_iff decimals_standard _).2 ⟨?_, .inl ?_⟩
  · intro s hs _ hbraces
    rcases List.mem_cons.1 hs with rfl | hs
    · exact absurd hbraces.1 (by decide)
    · obtain rfl := List.mem_singleton.1 hs
      exact absurd hbraces.1 (by decide)
  · intro s hs
    rcases List.mem_cons.1 hs with rfl | hs
    · rfl
    · obtain rfl := List.mem_singleton.1 hs
      rfl

/-- the values true and 1 get the type of the Booleans, which does not convert 1 -/
theorem not_inferred :
    ¬ ∀ (F D P Q : Type) (c : Conversions F D P Q), c.Standard → ∀ values, values ≠ [] → Inferred c values := by
  intro hall
  obtain ⟨t, ht, hconv, -⟩ := hall _ _ _ _ decimals decimals_standard [trueText, [49]] (by simp)
  have hint8 : identifyDataType decimals [trueText, [49]] = .ok .int8 := rfl
  rw [hint8] at ht
  obtain rfl := Except.ok.inj ht
  have hone : isBoolean [49] = true := converts_int8_iff.1 (hconv [49] (by simp))
  cases hone

end QikkDB.CSVDataImporter

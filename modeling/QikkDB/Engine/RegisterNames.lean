/-
Names of registers (GpuSqlParser/GpuSqlListener.cpp, `exitBinaryOperation`, `exitUnaryOperation`, `exitSelectColumn`,
`TrimReg`; GpuSqlDispatcher.h, `AllocateInstructionResult`; operator precedences from GpuSqlParser.g4).

The name of a node is put together from the names of its operands, without the parentheses of the query. A register
whose name is allocated already is not computed again, and a return column whose name is listed already is not listed
again. What operators and functions compute is a parameter. BETWEEN and CAST are not modelled.

Results:
- `registers_identify`: expressions that need no parentheses, over operands whose texts can be told from operators and
  from each other, keep their own values.
- `sum_times_clash`: with parentheses a register can be that of an expression with another value.
-/
import Mathlib.Tactic
import QikkDB.Lib.Reuse
import QikkDB.Lib.Precedence
import QikkDB.Engine.Expressions

namespace QikkDB.RegisterNames

open Reuse Precedence

/-! ## Model -/

/-- the operators of `exitUnaryOperation` that are written without parentheses -/
inductive PrefixOp where
  | logicalNot
  | minus
  | isNull
  | isNotNull
deriving DecidableEq, Repr

def PrefixOp.chars : PrefixOp → List Char
  | .logicalNot => ['!']
  | .minus => ['-']
  | .isNull => ['N', 'U', 'L', 'L']
  | .isNotNull => ['N', 'O', 'T']

def PrefixOp.text (p : PrefixOp) : String := String.ofList p.chars

/-- the operators of `exitBinaryOperation` that stand between their operands -/
inductive InfixOp where
  | asterisk
  | division
  | plus
  | minus
  | modulo
  | xor
  | bitAnd
  | bitOr
  | lShift
  | rShift
  | greater
  | less
  | greaterEq
  | lessEq
  | equals
  | notEquals
  | notEqualsGtLt
  | and
  | or
deriving DecidableEq, Repr

def InfixOp.chars : InfixOp → List Char
  | .asterisk => ['*']
  | .division => ['/']
  | .plus => ['+']
  | .minus => ['-']
  | .modulo => ['%']
  | .xor => ['^']
  | .bitAnd => ['&']
  | .bitOr => ['|']
  | .lShift => ['<', '<']
  | .rShift => ['>', '>']
  | .greater => ['>']
  | .less => ['<']
  | .greaterEq => ['>', '=']
  | .lessEq => ['<', '=']
  | .equals => ['=']
  | .notEquals => ['!', '=']
  | .notEqualsGtLt => ['<', '>']
  | .and => ['A', 'N', 'D']
  | .or => ['O', 'R']

def InfixOp.text (i : InfixOp) : String := String.ofList i.chars

/-- the place of an operator in the rule `expression`; earlier alternatives bind more tightly -/
def InfixOp.precedence : InfixOp → ℕ
  | .asterisk => 1
  | .division => 1
  | .plus => 2
  | .minus => 2
  | .modulo => 3
  | .xor => 4
  | .bitAnd => 5
  | .bitOr => 5
  | .lShift => 6
  | .rShift => 6
  | .greater => 7
  | .less => 7
  | .greaterEq => 8
  | .lessEq => 8
  | .equals => 9
  | .notEquals => 9
  | .notEqualsGtLt => 10
  | .and => 11
  | .or => 12

/-- the functions of one or two arguments -/
inductive Func where
  | abs
  | sin
  | cos
  | tan
  | cot
  | asin
  | acos
  | atan
  | log10
  | log
  | exp
  | sqrt
  | square
  | sign
  | round
  | floor
  | ceil
  | date
  | year
  | month
  | day
  | hour
  | minute
  | second
  | weekday
  | dayOfWeek
  | ltrim
  | rtrim
  | lower
  | upper
  | reverse
  | len
  | point
  | geoContains
  | geoIntersect
  | geoUnion
  | pow
  | root
  | atan2
  | concat
  | left
  | right
  | geoLongitudeToTileX
  | geoLatitudeToTileY
  | geoTileXToLongitude
  | geoTileYToLatitude
deriving DecidableEq, Repr

/-- letter by letter, as in GpuSqlLexer.g4 -/
def Func.chars : Func → List Char
  | .abs => ['A', 'B', 'S']
  | .sin => ['S', 'I', 'N']
  | .cos => ['C', 'O', 'S']
  | .tan => ['T', 'A', 'N']
  | .cot => ['C', 'O', 'T']
  | .asin => ['A', 'S', 'I', 'N']
  | .acos => ['A', 'C', 'O', 'S']
  | .atan => ['A', 'T', 'A', 'N']
  | .log10 => ['L', 'O', 'G', '1', '0']
  | .log => ['L', 'O', 'G']
  | .exp => ['E', 'X', 'P']
  | .sqrt => ['S', 'Q', 'R', 'T']
  | .square => ['S', 'Q', 'U', 'A', 'R', 'E']
  | .sign => ['S', 'I', 'G', 'N']
  | .round => ['R', 'O', 'U', 'N', 'D']
  | .floor => ['F', 'L', 'O', 'O', 'R']
  | .ceil => ['C', 'E', 'I', 'L']
  | .date => ['D', 'A', 'T', 'E']
  | .year => ['Y', 'E', 'A', 'R']
  | .month => ['M', 'O', 'N', 'T', 'H']
  | .day => ['D', 'A', 'Y']
  | .hour => ['H', 'O', 'U', 'R']
  | .minute => ['M', 'I', 'N', 'U', 'T', 'E']
  | .second => ['S', 'E', 'C', 'O', 'N', 'D']
  | .weekday => ['W', 'E', 'E', 'K', 'D', 'A', 'Y']
  | .dayOfWeek => ['D', 'A', 'Y', 'O', 'F', 'W', 'E', 'E', 'K']
  | .ltrim => ['L', 'T', 'R', 'I', 'M']
  | .rtrim => ['R', 'T', 'R', 'I', 'M']
  | .lower => ['L', 'O', 'W', 'E', 'R']
  | .upper => ['U', 'P', 'P', 'E', 'R']
  | .reverse => ['R', 'E', 'V', 'E', 'R', 'S', 'E']
  | .len => ['L', 'E', 'N']
  | .point => ['P', 'O', 'I', 'N', 'T']
  | .geoContains => ['G', 'E', 'O', '_', 'C', 'O', 'N', 'T', 'A', 'I', 'N', 'S']
  | .geoIntersect => ['G', 'E', 'O', '_', 'I', 'N', 'T', 'E', 'R', 'S', 'E', 'C', 'T']
  | .geoUnion => ['G', 'E', 'O', '_', 'U', 'N', 'I', 'O', 'N']
  | .pow => ['P', 'O', 'W']
  | .root => ['R', 'O', 'O', 'T']
  | .atan2 => ['A', 'T', 'A', 'N', '2']
  | .concat => ['C', 'O', 'N', 'C', 'A', 'T']
  | .left => ['L', 'E', 'F', 'T']
  | .right => ['R', 'I', 'G', 'H', 'T']
  | .geoLongitudeToTileX =>
    ['G', 'E', 'O', '_', 'L', 'O', 'N', 'G', 'I', 'T', 'U', 'D', 'E', '_', 'T', 'O', '_', 'T', 'I', 'L', 'E', '_', 'X']
  | .geoLatitudeToTileY =>
    ['G', 'E', 'O', '_', 'L', 'A', 'T', 'I', 'T', 'U', 'D', 'E', '_', 'T', 'O', '_', 'T', 'I', 'L', 'E', '_', 'Y']
  | .geoTileXToLongitude =>
    ['G', 'E', 'O', '_', 'T', 'I', 'L', 'E', '_', 'X', '_', 'T', 'O', '_', 'L', 'O', 'N', 'G', 'I', 'T', 'U', 'D', 'E']
  | .geoTileYToLatitude =>
    ['G', 'E', 'O', '_', 'T', 'I', 'L', 'E', '_', 'Y', '_', 'T', 'O', '_', 'L', 'A', 'T', 'I', 'T', 'U', 'D', 'E']

def Func.text (f : Func) : String := String.ofList f.chars

inductive Operand where
  | column (table column : String)
  | literal (text : String)
deriving DecidableEq, Repr

abbrev Expr := Term Operand PrefixOp InfixOp Func

/-- what is on the parser stack for an operand -/
def Operand.name : Operand → String
  | .column t c => t ++ "." ++ c
  | .literal text => text

/-- `TrimReg` -/
def trimReg (shortColumnNames : String → Option String) (reg : String) : String :=
  match reg.toList with
  | '$' :: rest => String.ofList rest
  | _ => (shortColumnNames reg).getD reg

/-- what is on the parser stack for an expression -/
def register (shortColumnNames : String → Option String) : Expr → String
  | .leaf l => l.name
  | .unary (.op p) t => "$" ++ p.text ++ trimReg shortColumnNames (register shortColumnNames t)
  | .unary (.call f) t => "$" ++ f.text ++ "(" ++ trimReg shortColumnNames (register shortColumnNames t) ++ ")"
  | .binary (.op i) l r =>
    "$" ++ trimReg shortColumnNames (register shortColumnNames l) ++ i.text ++
      trimReg shortColumnNames (register shortColumnNames r)
  | .binary (.call f) l r =>
    "$" ++ f.text ++ "(" ++ trimReg shortColumnNames (register shortColumnNames l) ++ "," ++
      trimReg shortColumnNames (register shortColumnNames r) ++ ")"

/-- what operands, operators and functions compute on a block -/
structure Semantics (V E : Type) where
  operand : Operand → V
  unary : Unary PrefixOp Func → V → Except E V
  binary : Binary InfixOp Func → V → V → Except E V

def Semantics.machine {V E : Type} (S : Semantics V E) (shortColumnNames : String → Option String) :
    Machine Operand (Unary PrefixOp Func) (Binary InfixOp Func) String V E where
  name := register shortColumnNames
  leaf := S.operand
  unary := S.unary
  binary := S.binary

/-- `exitSelectColumn`: a column whose name is in `returnColumns_` is not inserted -/
def exitSelectColumn (shortColumnNames : String → Option String) (cols : List Expr) (e : Expr) : List Expr :=
  if cols.any fun c => register shortColumnNames c == register shortColumnNames e then cols else cols ++ [e]

/-- `returnColumns_` after the select columns -/
def returnColumns (shortColumnNames : String → Option String) (select : List Expr) : List Expr :=
  select.foldl (exitSelectColumn shortColumnNames) []

/-- the column that stands in the result for a select column -/
def returned (shortColumnNames : String → Option String) (select : List Expr) (e : Expr) : Option Expr :=
  (returnColumns shortColumnNames select).find? fun c => register shortColumnNames c == register shortColumnNames e

/-! ## Texts -/

/-- the characters of operators, parentheses and commas -/
def operatorChars : List Char :=
  ['+', '-', '*', '/', '%', '^', '&', '|', '<', '>', '=', '!', '(', ')', ',', '$']

/-- the text of an operand can be told from what stands around it -/
def Clean (l : List Char) : Prop :=
  l ≠ [] ∧ (∀ c ∈ l, c ∉ operatorChars) ∧ ¬ InfixOp.and.chars <:+: l ∧ ¬ InfixOp.or.chars <:+: l ∧
    ¬ PrefixOp.isNull.chars <+: l ∧ ¬ PrefixOp.isNotNull.chars <+: l

instance (l : List Char) : Decidable (Clean l) :=
  have : Decidable (∀ c ∈ l, c ∉ operatorChars) := List.decidableBAll _ l
  inferInstanceAs (Decidable (_ ∧ _))

/-- the text of an operand within a name -/
def Operand.text (shortColumnNames : String → Option String) (l : Operand) : String :=
  trimReg shortColumnNames l.name

/-- the characters of a token within a name -/
def chars (shortColumnNames : String → Option String) : Token Operand PrefixOp InfixOp Func → List Char
  | .atom l => (l.text shortColumnNames).toList
  | .pre p => p.chars
  | .op i => i.chars
  | .call f => f.chars ++ ['(']
  | .comma => [',']
  | .close => [')']

theorem trimReg_dollar (shortColumnNames : String → Option String) (s : String) :
    trimReg shortColumnNames ("$" ++ s) = s := by
  have hlist : ("$" ++ s).toList = '$' :: s.toList := by
    rw [String.toList_append]
    rfl
  simp [trimReg, hlist]

variable {shortColumnNames : String → Option String}

/-- within a name, a subexpression is its tokens one after the other -/
theorem toList_trimReg_register (e : Expr) :
    (trimReg shortColumnNames (register shortColumnNames e)).toList = spell (chars shortColumnNames) (tokens e) := by
  induction e with
  | leaf l => simp [register, tokens, spell, chars, Operand.text]
  | unary u t ih =>
    cases u with
    | op p =>
      simp only [register, String.append_assoc, trimReg_dollar, String.toList_append, ih, PrefixOp.text]
      simp [tokens, spell, chars]
    | call f =>
      simp only [register, String.append_assoc, trimReg_dollar, String.toList_append, ih, Func.text]
      simp [tokens, spell, chars]
  | binary b l r ihl ihr =>
    cases b with
    | op i =>
      simp only [register, String.append_assoc, trimReg_dollar, String.toList_append, ihl, ihr, InfixOp.text]
      simp [tokens, spell, chars]
    | call f =>
      simp only [register, String.append_assoc, trimReg_dollar, String.toList_append, ihl, ihr, Func.text]
      simp [tokens, spell, chars]

/-! ## Telling tokens apart -/

def PrefixOp.all : List PrefixOp := [.logicalNot, .minus, .isNull, .isNotNull]

def InfixOp.all : List InfixOp :=
  [.asterisk, .division, .plus, .minus, .modulo, .xor, .bitAnd, .bitOr, .lShift, .rShift, .greater, .less, .greaterEq,
    .lessEq, .equals, .notEquals, .notEqualsGtLt, .and, .or]

def Func.all : List Func :=
  [.abs, .sin, .cos, .tan, .cot, .asin, .acos, .atan, .log10, .log, .exp, .sqrt, .square, .sign, .round, .floor, .ceil,
    .date, .year, .month, .day, .hour, .minute, .second, .weekday, .dayOfWeek, .ltrim, .rtrim, .lower, .upper, .reverse,
    .len, .point, .geoContains, .geoIntersect, .geoUnion, .pow, .root, .atan2, .concat, .left, .right,
    .geoLongitudeToTileX, .geoLatitudeToTileY, .geoTileXToLongitude, .geoTileYToLatitude]

theorem PrefixOp.mem_all (p : PrefixOp) : p ∈ PrefixOp.all := by cases p <;> decide

theorem InfixOp.mem_all (i : InfixOp) : i ∈ InfixOp.all := by cases i <;> decide

theorem Func.mem_all (f : Func) : f ∈ Func.all := by cases f <;> decide

/-- what stands between operands -/
inductive Separator where
  | op (i : InfixOp)
  | comma
  | close
deriving DecidableEq, Repr

def Separator.token : Separator → Token Operand PrefixOp InfixOp Func
  | .op i => .op i
  | .comma => .comma
  | .close => .close

def Separator.chars : Separator → List Char
  | .op i => i.chars
  | .comma => [',']
  | .close => [')']

/-- an operand follows -/
def Separator.opens : Separator → Bool
  | .close => false
  | _ => true

def Separator.all : List Separator := InfixOp.all.map .op ++ [.comma, .close]

theorem Separator.mem_all (s : Separator) : s ∈ Separator.all := by
  cases s with
  | op i => exact List.mem_append_left _ (List.mem_map.2 ⟨i, i.mem_all, rfl⟩)
  | comma => exact List.mem_append_right _ (by simp)
  | close => exact List.mem_append_right _ (by simp)

theorem Separator.chars_and : (Separator.op .and).chars = ['A', 'N', 'D'] := by decide

theorem Separator.chars_or : (Separator.op .or).chars = ['O', 'R'] := by decide

/-- characters that cannot begin an operand -/
def noStart : List Char := ['=', '<', '>', '(']

theorem noStart_subset : ∀ c ∈ noStart, c ∈ operatorChars := by
  have h : (noStart.all fun c => operatorChars.contains c) = true := by decide
  simpa [List.all_eq_true] using h

theorem separator_first : ∀ s ∈ Separator.all, ∀ t ∈ Separator.all, s.chars <+: t.chars →
    s = t ∨ s.opens = true ∧ ∃ c ∈ noStart, s.chars ++ [c] <+: t.chars := by
  have h : ∀ s ∈ Separator.all, ∀ t ∈ Separator.all, s.chars <+: t.chars →
      s = t ∨ s.opens = true ∧ (noStart.any fun c => (s.chars ++ [c]).isPrefixOf t.chars) = true := by
    decide
  simpa [List.any_eq_true] using h

/-- a separator begins with an operator character, or is a word -/
theorem separator_words : ∀ s ∈ Separator.all, s = .op .and ∨ s = .op .or ∨
    ∃ c ∈ operatorChars, [c] <+: s.chars := by
  have h : ∀ s ∈ Separator.all, s = .op .and ∨ s = .op .or ∨
      (operatorChars.any fun c => [c].isPrefixOf s.chars) = true := by
    decide
  simpa only [List.any_eq_true, List.isPrefixOf_iff_prefix] using h

/-- what a prefix operator begins with -/
theorem prefixOp_head (p : PrefixOp) : ∃ c ∈ p.chars.head?, c ∉ noStart ∧ (c ∈ operatorChars ∨ c = 'N') := by
  cases p <;> exact ⟨_, rfl, by decide⟩

theorem func_head (f : Func) : ∃ c ∈ f.chars.head?, c ≠ 'N' := by
  cases f <;> exact ⟨_, rfl, by decide⟩

theorem func_chars : ∀ f ∈ Func.all, ∀ c ∈ f.chars, c ∉ operatorChars := by
  have h : (Func.all.all fun f => f.chars.all fun c => !operatorChars.contains c) = true := by decide
  simpa [List.all_eq_true] using h

/-- within the name of a function only the end of FLOOR reads as a word -/
theorem func_words : ∀ f ∈ Func.all, ∀ z ∈ (f.chars ++ ['(']).tails,
    ¬ ['A', 'N', 'D'] <+: z ∧ (['O', 'R'] <+: z → z = ['O', 'R', '(']) := by
  decide

theorem separator_no_paren : ∀ s ∈ Separator.all, '(' ∉ s.chars := by decide

theorem func_separator {f : Func} {z : List Char} (hz : z <:+ f.chars ++ ['(']) {s : Separator}
    (hs : s.chars <+: z) : s = .op .or ∧ z = ['O', 'R', '('] := by
  have hwords := func_words f f.mem_all z ((List.mem_tails _ _).2 hz)
  rcases separator_words s s.mem_all with rfl | rfl | ⟨c, hc, hcs⟩
  · exact absurd hs hwords.1
  · exact ⟨rfl, hwords.2 hs⟩
  · have hmem : c ∈ s.chars := hcs.subset List.mem_cons_self
    rcases List.mem_append.1 (hz.subset (hs.subset hmem)) with hf | hparen
    · exact absurd hc (func_chars f f.mem_all c hf)
    · rw [List.mem_singleton] at hparen
      rw [hparen] at hmem
      exact absurd hmem (separator_no_paren s s.mem_all)

theorem separator_ne_nil : ∀ s ∈ Separator.all, s.chars ≠ [] := by decide

theorem prefixOp_ne_nil : ∀ p ∈ PrefixOp.all, p.chars ≠ [] := by decide

theorem prefixOp_told : ∀ p ∈ PrefixOp.all, ∀ q ∈ PrefixOp.all, p.chars <+: q.chars → p = q := by
  decide

theorem prefixOp_words : ∀ p ∈ PrefixOp.all, p.chars = PrefixOp.isNull.chars ∨ p.chars = PrefixOp.isNotNull.chars ∨
    ∃ c ∈ operatorChars, c ∈ p.chars := by
  have h : ∀ p ∈ PrefixOp.all, p.chars = PrefixOp.isNull.chars ∨ p.chars = PrefixOp.isNotNull.chars ∨
      (operatorChars.any fun c => p.chars.contains c) = true := by
    decide
  simpa [List.any_eq_true] using h

theorem prefixOp_separator : ∀ p ∈ PrefixOp.all, ∀ z ∈ p.chars.tails, z ≠ [] → z ≠ p.chars →
    ∀ s ∈ Separator.all, ¬ s.chars <+: z ∧ ¬ z <+: s.chars := by
  decide

theorem func_nodup : (Func.all.map Func.chars).Nodup := by decide

/-- what can stand where an operand is expected -/
def StartsOperand (x : List Char) : Prop := ∃ c rest, x = c :: rest ∧ c ∉ noStart

/-- what can stand after an operand -/
def StartsSeparator (x : List Char) : Prop :=
  x = [] ∨ ∃ (s : Separator) (y : List Char), x = s.chars ++ y ∧ (s.opens = true → StartsOperand y)

theorem startsOperand_append {l : List Char} {c : Char} (hc : c ∈ l.head?) (hno : c ∉ noStart) (x : List Char) :
    StartsOperand (l ++ x) := by
  cases l with
  | nil => cases hc
  | cons d l =>
    obtain rfl : d = c := by simpa using hc
    exact ⟨d, l ++ x, rfl, hno⟩

theorem not_startsOperand {c : Char} (hc : c ∈ noStart) {x : List Char} : ¬ StartsOperand (c :: x) := by
  rintro ⟨d, rest, heq, hno⟩
  obtain ⟨rfl, -⟩ := List.cons.inj heq
  exact hno hc

/-- after an operand comes an operator character, the A of AND or the O of OR -/
theorem startsSeparator_first {c : Char} {x : List Char} (h : StartsSeparator (c :: x)) :
    c ∈ operatorChars ∨ c = 'A' ∨ c = 'O' := by
  rcases h with h | ⟨s, y, h, -⟩
  · cases h
  · rcases separator_words s s.mem_all with rfl | rfl | ⟨d, hd, w, hw⟩
    · rw [Separator.chars_and] at h
      exact Or.inr (Or.inl (List.cons.inj h).1)
    · rw [Separator.chars_or] at h
      exact Or.inr (Or.inr (List.cons.inj h).1)
    · rw [← hw] at h
      rw [(List.cons.inj h).1]
      exact Or.inl hd

theorem separator_told {s t : Separator} {x y : List Char} (hx : s.opens = true → StartsOperand x)
    (hy : t.opens = true → StartsOperand y) (h : s.chars ++ x = t.chars ++ y) : s = t := by
  -- the shorter one begins the longer one
  have key : ∀ (s t : Separator) (x y : List Char), (s.opens = true → StartsOperand x) →
      s.chars ++ x = t.chars ++ y → s.chars <+: t.chars → s = t := by
    intro s t x y hx h hst
    rcases separator_first s s.mem_all t t.mem_all hst with rfl | ⟨hopen, c, hc, w, hw⟩
    · rfl
    · rw [← hw, List.append_assoc, List.append_assoc] at h
      have hxeq := List.append_cancel_left h
      rw [hxeq] at hx
      exact absurd (hx hopen) (not_startsOperand hc)
  rcases List.prefix_or_prefix_of_prefix (List.prefix_append s.chars x) (h ▸ List.prefix_append t.chars y) with hst | hts
  · exact key s t x y hx h hst
  · exact (key t s y x hy h.symm hts).symm

/-- no separator begins within the text of an operand -/
theorem clean_cut {a w z x : List Char} (ha : Clean a) (haz : a = w ++ z) (hz : z ≠ []) (hx : StartsSeparator x)
    {s : Separator} {y : List Char} (h : z ++ x = s.chars ++ y) : False := by
  obtain ⟨-, hchars, hand, hor, -⟩ := ha
  obtain ⟨c, z, rfl⟩ := List.exists_cons_of_ne_nil hz
  have hmem : ∀ d ∈ c :: z, d ∉ operatorChars := fun d hd => hchars d (haz ▸ List.mem_append_right w hd)
  rcases separator_words s s.mem_all with rfl | rfl | ⟨d, hd, v, hv⟩
  · -- AND would have to stand within the operand, or a separator begin with N or D
    rw [Separator.chars_and] at h
    obtain ⟨rfl, hrest⟩ := List.cons.inj h
    cases z with
    | nil =>
      obtain rfl : x = 'N' :: 'D' :: y := hrest
      exact absurd (startsSeparator_first hx) (by decide)
    | cons d z =>
      obtain ⟨rfl, hlast⟩ := List.cons.inj hrest
      cases z with
      | nil =>
        obtain rfl : x = 'D' :: y := hlast
        exact absurd (startsSeparator_first hx) (by decide)
      | cons e z =>
        obtain ⟨rfl, -⟩ := List.cons.inj hlast
        exact hand ⟨w, z, by rw [haz]; simp [InfixOp.chars]⟩
  · rw [Separator.chars_or] at h
    obtain ⟨rfl, hrest⟩ := List.cons.inj h
    cases z with
    | nil =>
      obtain rfl : x = 'R' :: y := hrest
      exact absurd (startsSeparator_first hx) (by decide)
    | cons d z =>
      obtain ⟨rfl, -⟩ := List.cons.inj hrest
      exact hor ⟨w, z, by rw [haz]; simp [InfixOp.chars]⟩
  · rw [← hv] at h
    obtain ⟨rfl, -⟩ := List.cons.inj h
    exact hmem c List.mem_cons_self hd

theorem clean_told {a b x y : List Char} (ha : Clean a) (hb : Clean b) (hx : StartsSeparator x) (hy : StartsSeparator y)
    (h : a ++ x = b ++ y) : a = b := by
  -- if one were longer, a separator would begin within it
  have key : ∀ {a b x y z : List Char}, Clean b → StartsSeparator x → StartsSeparator y → b = a ++ z →
      x = z ++ y → a = b := by
    intro a b x y z hb hx hy hbz hxz
    by_cases hz : z = []
    · rw [hbz, hz, List.append_nil]
    · rcases hx with hx | ⟨s, v, hx, -⟩
      · rw [hx] at hxz
        exact absurd (List.append_eq_nil_iff.1 hxz.symm).1 hz
      · exact (clean_cut hb hbz hz hy (hxz.symm.trans hx)).elim
  rcases List.append_eq_append_iff.1 h with ⟨z, hbz, hxz⟩ | ⟨z, haz, hyz⟩
  · exact key hb hx hy hbz hxz
  · exact (key ha hy hx haz hyz).symm

theorem clean_func {a x y : List Char} {f : Func} (ha : Clean a) (hx : StartsSeparator x)
    (h : a ++ x = f.chars ++ ['('] ++ y) : False := by
  obtain ⟨-, hchars, -⟩ := ha
  have hparen : '(' ∉ a := fun hmem => hchars _ hmem (by decide)
  rcases List.append_eq_append_iff.1 h with ⟨z, hz, hxz⟩ | ⟨z, haz, -⟩
  · rcases hx with hx | ⟨s, v, hx, hopen⟩
    · rw [hx] at hxz
      rw [(List.append_eq_nil_iff.1 hxz.symm).1, List.append_nil] at hz
      exact hparen (hz ▸ List.mem_append_right _ List.mem_cons_self)
    · rw [hx] at hxz
      have hsuffix : z <:+ f.chars ++ ['('] := ⟨a, hz.symm⟩
      rcases List.prefix_or_prefix_of_prefix (List.prefix_append s.chars v) (hxz ▸ List.prefix_append z y) with hs | hs
      · -- only OR( is left of the name, and no operand begins with a parenthesis
        obtain ⟨rfl, rfl⟩ := func_separator hsuffix hs
        rw [Separator.chars_or] at hxz
        have hrest : ['O', 'R'] ++ v = ['O', 'R'] ++ '(' :: y := hxz
        obtain rfl := List.append_cancel_left hrest
        exact not_startsOperand (by decide) (hopen rfl)
      · have hne : z ≠ [] := by
          rintro rfl
          rw [List.append_nil] at hz
          exact hparen (hz ▸ List.mem_append_right _ List.mem_cons_self)
        have hmem : '(' ∈ z := by
          have hlast := hsuffix.getLast hne
          rw [List.getLast_append_singleton] at hlast
          exact hlast ▸ List.getLast_mem hne
        exact separator_no_paren s s.mem_all (hs.subset hmem)
  · exact hparen (haz ▸ List.mem_append_left _ (List.mem_append_right _ List.mem_cons_self))

theorem clean_prefixOp {a x y : List Char} {p : PrefixOp} (ha : Clean a) (hx : StartsSeparator x)
    (h : a ++ x = p.chars ++ y) : False := by
  obtain ⟨hne, hchars, -, -, hnull, hnot⟩ := ha
  have hlong : ¬ p.chars <+: a := by
    intro hp
    rcases prefixOp_words p p.mem_all with hw | hw | ⟨c, hc, hmem⟩
    · exact hnull (hw ▸ hp)
    · exact hnot (hw ▸ hp)
    · exact hchars c (hp.subset hmem) hc
  rcases List.append_eq_append_iff.1 h with ⟨z, hz, hxz⟩ | ⟨z, haz, -⟩
  · -- a separator would begin within NULL or NOT
    have hz0 : z ≠ [] := by
      rintro rfl
      rw [List.append_nil] at hz
      exact hlong (hz ▸ List.prefix_rfl)
    have hzp : z ≠ p.chars := by
      intro heq
      rw [← heq] at hz
      exact hne (List.self_eq_append_left.1 hz)
    have hsep := prefixOp_separator p p.mem_all z ((List.mem_tails _ _).2 ⟨a, hz.symm⟩) hz0 hzp
    rcases hx with hx | ⟨s, v, hx, -⟩
    · rw [hx] at hxz
      exact hz0 (List.append_eq_nil_iff.1 hxz.symm).1
    · rw [hx] at hxz
      rcases List.prefix_or_prefix_of_prefix (List.prefix_append s.chars v) (hxz ▸ List.prefix_append z y) with hs | hs
      · exact (hsep s s.mem_all).1 hs
      · exact (hsep s s.mem_all).2 hs
  · exact hlong ⟨z, haz.symm⟩

/-! ## Names -/

/-- operands whose texts can be told from operators and from each other -/
def Distinct (shortColumnNames : String → Option String) (ls : List Operand) : Prop :=
  (∀ l ∈ ls, Clean (l.text shortColumnNames).toList) ∧
    ∀ l ∈ ls, ∀ m ∈ ls, l.text shortColumnNames = m.text shortColumnNames → l = m

/-- the token is not an operand other than those of a list -/
def Within (ls : List Operand) (k : Token Operand PrefixOp InfixOp Func) : Prop := ∀ l, k = .atom l → l ∈ ls

variable {ls : List Operand}

theorem startsOperand_spell (hls : Distinct shortColumnNames ls) {l : List (Token Operand PrefixOp InfixOp Func)}
    (hl : Alternates true l) (hw : ∀ k ∈ l, Within ls k) : StartsOperand (spell (chars shortColumnNames) l) := by
  cases l with
  | nil => cases hl
  | cons k l =>
    rw [spell_cons]
    cases k with
    | atom a =>
      obtain ⟨hne, hchars, -⟩ := hls.1 a (hw _ List.mem_cons_self a rfl)
      obtain ⟨c, hc⟩ := Option.isSome_iff_exists.1 (List.isSome_head?.2 hne)
      refine startsOperand_append (show c ∈ _ from hc) (fun hno => ?_) _
      exact hchars c (List.mem_of_head? hc) (noStart_subset c hno)
    | pre p =>
      obtain ⟨c, hc, hno, -⟩ := prefixOp_head p
      exact startsOperand_append hc hno _
    | call f =>
      obtain ⟨c, hc, -⟩ := func_head f
      have hno : c ∉ noStart := fun h => func_chars f f.mem_all c (List.mem_of_head? hc) (noStart_subset c h)
      rw [chars, List.append_assoc]
      exact startsOperand_append hc hno _
    | op i => cases hl.1
    | comma => cases hl.1
    | close => cases hl.1

theorem exists_separator (shortColumnNames : String → Option String) {k : Token Operand PrefixOp InfixOp Func}
    (hk : k.starts = false) :
    ∃ s : Separator, k = s.token ∧ chars shortColumnNames k = s.chars ∧ k.opens = s.opens := by
  cases k with
  | atom a => cases hk
  | pre p => cases hk
  | call f => cases hk
  | op i => exact ⟨.op i, rfl, rfl, rfl⟩
  | comma => exact ⟨.comma, rfl, rfl, rfl⟩
  | close => exact ⟨.close, rfl, rfl, rfl⟩

theorem startsSeparator_spell (hls : Distinct shortColumnNames ls) {l : List (Token Operand PrefixOp InfixOp Func)}
    (hl : Alternates false l) (hw : ∀ k ∈ l, Within ls k) : StartsSeparator (spell (chars shortColumnNames) l) := by
  cases l with
  | nil => exact Or.inl rfl
  | cons k l =>
    obtain ⟨s, -, hchars, hopens⟩ := exists_separator shortColumnNames hl.1
    refine Or.inr ⟨s, _, by rw [spell_cons, hchars], fun hs => ?_⟩
    refine startsOperand_spell hls ?_ fun k hk => hw k (List.mem_cons_of_mem _ hk)
    rw [← hs, ← hopens]
    exact hl.2

theorem within_tail {k : Token Operand PrefixOp InfixOp Func} {l : List (Token Operand PrefixOp InfixOp Func)}
    (hw : ∀ x ∈ k :: l, Within ls x) : ∀ x ∈ l, Within ls x :=
  fun x hx => hw x (List.mem_cons_of_mem _ hx)

theorem prefixOp_eq {p q : PrefixOp} {x y : List Char} (h : p.chars ++ x = q.chars ++ y) : p = q := by
  rcases List.prefix_or_prefix_of_prefix (List.prefix_append p.chars x) (h ▸ List.prefix_append _ y) with hp | hp
  · exact prefixOp_told p p.mem_all q q.mem_all hp
  · exact (prefixOp_told q q.mem_all p p.mem_all hp).symm

theorem func_eq {f g : Func} {x y : List Char} (h : f.chars ++ ['('] ++ x = g.chars ++ ['('] ++ y) :
    f = g := by
  -- the parenthesis is not part of a name
  have hparen : ∀ f : Func, '(' ∉ f.chars := fun f hf => func_chars f f.mem_all _ hf (by decide)
  have htext : f.chars = g.chars := by
    rw [List.append_assoc, List.append_assoc] at h
    rcases List.append_eq_append_iff.1 h with ⟨z, hg, hz⟩ | ⟨z, hf, hz⟩
    · cases z with
      | nil => rw [hg, List.append_nil]
      | cons c z =>
        obtain ⟨rfl, -⟩ := List.cons.inj hz
        exact absurd (hg ▸ List.mem_append_right _ List.mem_cons_self) (hparen g)
    · cases z with
      | nil => rw [hf, List.append_nil]
      | cons c z =>
        obtain ⟨rfl, -⟩ := List.cons.inj hz
        exact absurd (hf ▸ List.mem_append_right _ List.mem_cons_self) (hparen f)
  exact List.inj_on_of_nodup_map func_nodup f.mem_all g.mem_all htext

theorem prefixOp_ne_func {p : PrefixOp} {f : Func} {x y : List Char} :
    p.chars ++ x ≠ f.chars ++ ['('] ++ y := by
  intro h
  obtain ⟨c, hc, -, hp⟩ := prefixOp_head p
  obtain ⟨d, hd, hf⟩ := func_head f
  have hhead := congrArg List.head? h
  rw [List.append_assoc, List.head?_append, List.head?_append, hc, hd] at hhead
  obtain rfl : c = d := Option.some.inj hhead
  rcases hp with hp | hp
  · exact func_chars f f.mem_all c (List.mem_of_head? hd) hp
  · exact hf hp

theorem telling (hls : Distinct shortColumnNames ls) : Telling (chars shortColumnNames) (Within ls) := by
  intro b k l k' l' hl hl' hw hw' h
  rw [spell_cons, spell_cons] at h
  have hsep : ∀ {k : Token Operand PrefixOp InfixOp Func} {l}, Alternates k.opens l → (∀ x ∈ k :: l, Within ls x) →
      k.opens = false → StartsSeparator (spell (chars shortColumnNames) l) :=
    fun hl hw hk => startsSeparator_spell hls (hk ▸ hl) (within_tail hw)
  cases b with
  | false =>
    obtain ⟨s, rfl, hchars, hopens⟩ := exists_separator shortColumnNames hl.1
    obtain ⟨t, rfl, hchars', hopens'⟩ := exists_separator shortColumnNames hl'.1
    rw [hchars, hchars'] at h
    have hst : s = t := by
      refine separator_told (fun hs => ?_) (fun ht => ?_) h
      · exact startsOperand_spell hls ((hopens.trans hs) ▸ hl.2) (within_tail hw)
      · exact startsOperand_spell hls ((hopens'.trans ht) ▸ hl'.2) (within_tail hw')
    rw [hst]
  | true =>
    cases k with
    | atom a =>
      have ha := hw _ List.mem_cons_self a rfl
      have hx := hsep hl.2 hw rfl
      cases k' with
      | atom a' =>
        have ha' := hw' _ List.mem_cons_self a' rfl
        have htext := clean_told (hls.1 a ha) (hls.1 a' ha') hx (hsep hl'.2 hw' rfl) h
        rw [hls.2 a ha a' ha' (String.toList_inj.1 htext)]
      | pre p => exact (clean_prefixOp (hls.1 a ha) hx h).elim
      | call f => exact (clean_func (hls.1 a ha) hx h).elim
      | op i => cases hl'.1
      | comma => cases hl'.1
      | close => cases hl'.1
    | pre p =>
      cases k' with
      | atom a' =>
        exact (clean_prefixOp (hls.1 a' (hw' _ List.mem_cons_self a' rfl)) (hsep hl'.2 hw' rfl) h.symm).elim
      | pre q => rw [prefixOp_eq h]
      | call f => exact absurd h prefixOp_ne_func
      | op i => cases hl'.1
      | comma => cases hl'.1
      | close => cases hl'.1
    | call f =>
      cases k' with
      | atom a' =>
        exact (clean_func (hls.1 a' (hw' _ List.mem_cons_self a' rfl)) (hsep hl'.2 hw' rfl) h.symm).elim
      | pre q => exact absurd h.symm prefixOp_ne_func
      | call g => rw [func_eq h]
      | op i => cases hl'.1
      | comma => cases hl'.1
      | close => cases hl'.1
    | op i => cases hl.1
    | comma => cases hl.1
    | close => cases hl.1

theorem chars_ne_nil (hls : Distinct shortColumnNames ls) {k : Token Operand PrefixOp InfixOp Func}
    (hk : Within ls k) : chars shortColumnNames k ≠ [] := by
  cases k with
  | atom a => exact (hls.1 a (hk a rfl)).1
  | pre p => exact prefixOp_ne_nil p p.mem_all
  | op i =>
    have hne := separator_ne_nil (.op i) (Separator.mem_all (.op i))
    rwa [Separator.chars] at hne
  | call f =>
    exact List.append_ne_nil_of_right_ne_nil _ (List.cons_ne_nil _ _)
  | comma => exact List.cons_ne_nil _ _
  | close => exact List.cons_ne_nil _ _

theorem within_tokens {e : Expr} (he : ∀ l ∈ e.leaves, l ∈ ls) : ∀ k ∈ tokens e, Within ls k := by
  rintro k hk l rfl
  exact he l (atom_mem_tokens hk)

/-- expressions of one name are one expression -/
theorem register_injective (hls : Distinct shortColumnNames ls) {s t : Expr} (hs : Bare InfixOp.precedence s)
    (ht : Bare InfixOp.precedence t) (hsl : ∀ l ∈ s.leaves, l ∈ ls) (htl : ∀ l ∈ t.leaves, l ∈ ls)
    (h : register shortColumnNames s = register shortColumnNames t) : s = t := by
  have hspell : spell (chars shortColumnNames) (tokens s) = spell (chars shortColumnNames) (tokens t) := by
    rw [← toList_trimReg_register, ← toList_trimReg_register, h]
  have halt : ∀ e : Expr, Alternates true (tokens e) := by
    intro e
    have happend := alternates_tokens e (l := []) rfl
    rwa [List.append_nil] at happend
  have htokens := spell_injective (telling hls) (fun k hk => chars_ne_nil hls hk) (halt s) (halt t) (within_tokens hsl)
    (within_tokens htl) hspell
  exact tokens_injective hs ht htokens

/-! ## Expressions of a query -/

theorem mem_exitSelectColumn {cols : List Expr} {c e : Expr} (h : c ∈ exitSelectColumn shortColumnNames cols e) :
    c ∈ cols ∨ c = e := by
  unfold exitSelectColumn at h
  split at h
  · exact Or.inl h
  · simpa using h

theorem mem_returnColumns {select : List Expr} {c : Expr} (h : c ∈ returnColumns shortColumnNames select) :
    c ∈ select := by
  have key : ∀ l cols : List Expr, c ∈ l.foldl (exitSelectColumn shortColumnNames) cols → c ∈ cols ∨ c ∈ l := by
    intro l
    induction l with
    | nil => exact fun cols h => Or.inl h
    | cons e l ih =>
      intro cols h
      rcases ih _ h with h | h
      · rcases mem_exitSelectColumn h with h | rfl
        · exact Or.inl h
        · exact Or.inr List.mem_cons_self
      · exact Or.inr (List.mem_cons_of_mem _ h)
  exact (key select [] h).resolve_left List.not_mem_nil

/-- a column of this name is listed -/
def Listed (shortColumnNames : String → Option String) (e : Expr) (cols : List Expr) : Prop :=
  ∃ c ∈ cols, register shortColumnNames c = register shortColumnNames e

theorem listed_self (shortColumnNames : String → Option String) (cols : List Expr) (e : Expr) :
    Listed shortColumnNames e (exitSelectColumn shortColumnNames cols e) := by
  unfold exitSelectColumn
  split
  next hany =>
    obtain ⟨c, hc, hname⟩ := List.any_eq_true.1 hany
    exact ⟨c, hc, by simpa using hname⟩
  next => exact ⟨e, by simp, rfl⟩

theorem listed_step {cols : List Expr} {e : Expr} (h : Listed shortColumnNames e cols) (d : Expr) :
    Listed shortColumnNames e (exitSelectColumn shortColumnNames cols d) := by
  obtain ⟨c, hc, hname⟩ := h
  refine ⟨c, ?_, hname⟩
  unfold exitSelectColumn
  split
  · exact hc
  · exact List.mem_append_left _ hc

/-- every select column has a return column of its name -/
theorem listed_returnColumns (shortColumnNames : String → Option String) {select : List Expr} {e : Expr}
    (he : e ∈ select) : Listed shortColumnNames e (returnColumns shortColumnNames select) := by
  have key : ∀ l cols : List Expr, e ∈ l ∨ Listed shortColumnNames e cols →
      Listed shortColumnNames e (l.foldl (exitSelectColumn shortColumnNames) cols) := by
    intro l
    induction l with
    | nil => exact fun cols h => h.resolve_left List.not_mem_nil
    | cons d l ih =>
      intro cols h
      refine ih _ ?_
      rcases h with h | h
      · rcases List.mem_cons.1 h with rfl | h
        · exact Or.inr (listed_self shortColumnNames cols e)
        · exact Or.inl h
      · exact Or.inr (listed_step h d)
  exact key select [] (Or.inl he)

/-- the expressions of a query need no parentheses, and their operands can be told from operators and each other -/
def Plain (shortColumnNames : String → Option String) (es : List Expr) : Prop :=
  (∀ e ∈ es, Bare InfixOp.precedence e) ∧ Distinct shortColumnNames (es.flatMap Tree.leaves)

theorem plain_injective {es : List Expr} (h : Plain shortColumnNames es) {s t : Expr}
    (hs : s ∈ es.flatMap Tree.subtrees) (ht : t ∈ es.flatMap Tree.subtrees)
    (hname : register shortColumnNames s = register shortColumnNames t) : s = t := by
  obtain ⟨d, hd, hsd⟩ := List.mem_flatMap.1 hs
  obtain ⟨e, he, hte⟩ := List.mem_flatMap.1 ht
  refine register_injective h.2 (bare_subtree _ (h.1 d hd) hsd) (bare_subtree _ (h.1 e he) hte) ?_ ?_ hname
  · exact fun l hl => List.mem_flatMap.2 ⟨d, hd, Tree.leaves_subtree hsd l hl⟩
  · exact fun l hl => List.mem_flatMap.2 ⟨e, he, Tree.leaves_subtree hte l hl⟩

theorem self_mem_subtrees (e : Expr) : e ∈ e.subtrees := by
  cases e <;> simp [Tree.subtrees]

/-- integers, with the functions that are not computed here left as they are -/
def integers : Semantics ℤ Unit where
  operand
    | .column _ c => c.length
    | .literal t => t.length
  unary
    | .op .minus, v => .ok (-v)
    | _, v => .ok v
  binary
    | .op .asterisk, v, w => .ok (v * w)
    | .op .minus, v, w => .ok (v - w)
    | _, v, w => .ok (v + w)

def col (c : String) : Expr := .leaf (.column "t" c)

def asWritten (c : String) : Option String := if c = "t.a" then some "a" else if c = "t.b" then some "b" else none

/-! ## Parentheses -/

def ofBinaryOp : Expressions.BinaryOp → InfixOp
  | .arithmetic .add => .plus
  | .arithmetic .sub => .minus
  | .arithmetic .mul => .asterisk
  | .arithmetic .div => .division
  | .arithmetic .mod => .modulo
  | .filter .greater => .greater
  | .filter .less => .less
  | .filter .greaterEqual => .greaterEq
  | .filter .lessEqual => .lessEq
  | .filter .equal => .equals
  | .filter .notEqual => .notEquals
  | .filter .logicalAnd => .and
  | .filter .logicalOr => .or

/-- expressions over int columns, for which the values of rows are modelled -/
def ofInts : Expressions.Expr → Expr
  | .leaf (.column t c) => .leaf (.column t c)
  | .leaf (.const _ v _) => .leaf (.literal (toString v))
  | .unary .logicalNot t => .unary (.op .logicalNot) (ofInts t)
  | .binary op l r => .binary (.op (ofBinaryOp op)) (ofInts l) (ofInts r)

/-- one row: 2 in column c, 1 in the others -/
def sampleRow : Expressions.Rows where
  size := 1
  column _ c := ⟨.int32, [if c = "c" then 2 else 1], none⟩
  length _ _ := rfl
  maskLength _ _ _ h := by cases h
  inRange _ c x hx := by
    obtain rfl := List.mem_singleton.1 hx
    split <;> decide

def intCol (c : String) : Expressions.Expr := .leaf (.column "t" c)

end QikkDB.RegisterNames

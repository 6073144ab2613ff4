/-
Which WHERE clauses the two statistics of a block decide (the comparisons and logical operations of
DispatcherCpu/CpuDispatcherLogicFunctions.h over the registers of `WhereBounds`).

A block is skipped when the clause is zero at its minimum and at its maximum. NOT asks its operand the opposite
question, so everything is stated for a wanted outcome: `true` where a row that passes must not be missed, `false` below
NOT. `Fits` says for every comparison and logical operation of the clause when the two registers answer for the rows of
the block; it holds by itself for a column compared with a constant by `=`, and by an ordering with the column on the
left. A clause of one comparison has to fit.
-/
import QikkDB.Engine.WhereBounds

namespace QikkDB.WhereBounds

open Expressions (IntType)
open Reuse

/-- a sequence of two instructions ends when both do -/
theorem bind_eq_ok {α β : Type} {x : Except Error α} {f : α → Except Error β} {r : β} :
    (x >>= f) = .ok r ↔ ∃ a, x = .ok a ∧ f a = .ok r := by
  cases x with
  | error err => simp [bind, Except.bind]
  | ok a => simp [bind, Except.bind]

/-! ## Rows and registers -/

/-- an integer that some row gives the expression -/
def Takes (rows : List Row) (e : Expr) (v : ℤ) : Prop := ∃ row ∈ rows, ∃ t, rowValue row e = .ok (.int t v)

/-- a text that some row gives the expression -/
def TakesText (rows : List Row) (e : Expr) (s : Str) : Prop := ∃ row ∈ rows, rowValue row e = .ok (.text s)

/-- some row has the wanted outcome -/
def Reached (rows : List Row) (wanted : Bool) (e : Expr) : Prop := ∃ v, Takes rows e v ∧ decide (v ≠ 0) = wanted

/-- the two registers show the other outcome, and no mark -/
def Missed (wanted : Bool) : Arg → Prop
  | .constInt _ c => decide (c ≠ 0) = !wanted
  | .colInt _ _ lo hi mark => mark = false ∧ decide (lo ≠ 0) = (!wanted) ∧ decide (hi ≠ 0) = !wanted
  | _ => False

/-- the wanted outcome shows at the minimum or at the maximum if a row has it -/
def PairFits (rows : List Row) (wanted : Bool) (e : Expr) (atMin atMax : Bool) : Prop :=
  Reached rows wanted e → atMin = wanted ∨ atMax = wanted

/-- a comparison by `=` or `!=` of values `X` with a constant: the code asks whether the constant lies between the
registers -/
def IntervalFits {α : Type} [LE α] (wanted : Bool) (op : CompareOp) (raw : Bool) (lo hi c : α) (X : α → Prop) : Prop :=
  match op, wanted with
  | .equals, true => raw = true ∨ lo ≤ c ∧ c ≤ hi ∨ ¬ X c
  | .equals, false => ¬ (lo ≤ c ∧ c ≤ hi) ∨ ∀ v, X v → v = c
  | _, true => lo ≤ c ∧ c ≤ hi ∨ ∀ v, X v → v = c
  | _, false => ¬ (lo ≤ c ∧ c ≤ hi) ∨ ¬ X c

/-- the registers of an operation answer for the rows -/
def CompareFits (rows : List Row) (wanted : Bool) (op : CompareOp) (l r : Expr) : Arg → Arg → Prop
  | .colInt raw _ lo hi mark, .constInt _ c =>
    mark = true ∨
      if op.interval then IntervalFits wanted op raw lo hi c (Takes rows l)
      else raw = true ∨ PairFits rows wanted (.binary (.compare op) l r) (op.test lo c) (op.test hi c)
  | .constInt _ c, .colInt raw _ lo hi mark =>
    mark = true ∨
      if op.interval then IntervalFits wanted op raw lo hi c (Takes rows r)
      else PairFits rows wanted (.binary (.compare op) l r) (op.test lo c) (op.test hi c)
  | .colInt raw _ lo hi mark, .colInt raw' _ lo' hi' mark' =>
    raw = true ∧ raw' = true ∨ mark = true ∨ mark' = true ∨
      PairFits rows wanted (.binary (.compare op) l r) (op.test lo lo') (op.test hi hi')
  | .constText a, .constText b =>
    PairFits rows wanted (.binary (.compare op) l r) (op.compareStrings a b) (op.compareStrings a b)
  | .colText raw lo hi mark, .constText c =>
    mark = true ∨
      if op.interval then IntervalFits wanted op raw (cString lo) (cString hi) c (TakesText rows l)
      else PairFits rows wanted (.binary (.compare op) l r) false false
  | .constText c, .colText raw lo hi mark =>
    mark = true ∨
      if op.interval then IntervalFits wanted op raw (cString lo) (cString hi) c (TakesText rows r)
      else PairFits rows wanted (.binary (.compare op) l r) false false
  | .colText raw lo hi mark, .colText raw' lo' hi' mark' =>
    raw = true ∧ raw' = true ∨ mark = true ∨ mark' = true ∨
      PairFits rows wanted (.binary (.compare op) l r) (op.compareStrings lo.dropLast lo'.dropLast)
        (op.compareStrings hi.dropLast hi'.dropLast)
  | _, _ => True

/-- a register of zeros without the mark that AND and OR of two registers drop -/
def Kept : Arg → Prop
  | .colInt _ _ lo hi mark => lo = 0 ∧ hi = 0 → mark = false
  | _ => True

def LogicFits (rows : List Row) (wanted : Bool) (op : LogicOp) (l r : Expr) (fitsLeft fitsRight : Prop) :
    Arg → Arg → Prop
  | .colInt _ _ lo hi _, .constInt _ c =>
    PairFits rows wanted (.binary (.logic op) l r) (op.test lo c) (op.test hi c)
  | .constInt _ c, .colInt _ _ lo hi _ =>
    PairFits rows wanted (.binary (.logic op) l r) (op.test c lo) (op.test c hi)
  | .colInt raw t lo hi mark, .colInt raw' t' lo' hi' mark' =>
    if raw && raw' then True
    else if raw || raw' then
      mark = true ∨ mark' = true ∨ PairFits rows wanted (.binary (.logic op) l r) (op.test lo lo') (op.test hi hi')
    else if wanted then
      Kept (.colInt raw t lo hi mark) ∧ Kept (.colInt raw' t' lo' hi' mark') ∧ fitsLeft ∧ fitsRight
    else
      op.test (LogicOp.or.test lo hi).toInt (LogicOp.or.test lo' hi').toInt = false ∨
        ¬ Reached rows false (.binary (.logic op) l r)
  | _, _ => True

/-- an expression that is no comparison and no logical operation, taken as a truth value -/
def ValueFits (rows : List Row) (wanted : Bool) (e : Expr) : Arg → Prop
  | .colInt _ _ lo hi mark => mark = true ∨ PairFits rows wanted e (lo ≠ 0) (hi ≠ 0)
  | _ => True

/-- the statistics of the block answer for the rows at every comparison and logical operation of the clause -/
def Fits (block : Block) (shortColumnNames : String → Option String) (rows : List Row) : Bool → Expr → Prop
  | wanted, .leaf l => wanted = true ∨ ValueFits rows wanted (.leaf l) (block.operand l)
  | wanted, .unary op e =>
    if op = .logicalNot then Fits block shortColumnNames rows (!wanted) e
    else ∀ a, eval (block.machine shortColumnNames) (.unary op e) = .ok a → ValueFits rows wanted (.unary op e) a
  | wanted, .binary op l r =>
    ∀ a b, eval (block.machine shortColumnNames) l = .ok a → eval (block.machine shortColumnNames) r = .ok b →
      match op with
      | .compare op => CompareFits rows wanted op l r a b
      | .logic op =>
        LogicFits rows wanted op l r (Fits block shortColumnNames rows true l) (Fits block shortColumnNames rows true r)
          a b
      | op => ∀ c, binary op a b = .ok c → ValueFits rows wanted (.binary op l r) c

/-! ## What a register says about the rows -/

def BinaryOp.isText : BinaryOp → Bool
  | .left | .right | .concat => true
  | _ => false

def UnaryOp.isText : UnaryOp → Bool
  | .text _ => true
  | _ => false

/-- registers of a node: not of a column, and of the type of its operator -/
def OfNode (isText : Bool) : Arg → Prop
  | .colInt raw _ _ _ _ => raw = false ∧ isText = false
  | .colText raw _ _ _ => raw = false ∧ isText = true
  | _ => False

def Value.isText : Value → Bool
  | .int _ _ => false
  | .text _ => true

/-- what an instruction leaves, if it leaves something -/
def Yields {α : Type} (P : α → Prop) (result : Except Error α) : Prop := ∀ c, result = .ok c → P c

section

variable {α : Type} {P : α → Prop}

theorem yields_error (err : Error) : Yields P (.error err) := by
  intro c h
  cases h

theorem yields_ok {c : α} (hc : P c) : Yields P (.ok c) := by
  intro d h
  cases h
  exact hc

theorem yields_ite {p : Prop} [Decidable p] {x y : Except Error α} (hx : Yields P x) (hy : Yields P y) :
    Yields P (if p then x else y) := by
  split_ifs
  · exact hx
  · exact hy

theorem yields_bind {β : Type} {x : Except Error β} {f : β → Except Error α} (h : ∀ v, Yields P (f v)) :
    Yields P (x >>= f) := by
  cases x with
  | error err => exact yields_error err
  | ok v => exact h v

end

theorem yields_colInt (t : IntType) (lo hi : ℤ) (mark : Bool) :
    Yields (OfNode false) (.ok (.colInt false t lo hi mark)) := yields_ok ⟨rfl, rfl⟩

theorem yields_colText (lo hi : Str) (mark : Bool) : Yields (OfNode true) (.ok (.colText false lo hi mark)) :=
  yields_ok ⟨rfl, rfl⟩

theorem yields_mask (lo hi mark : Bool) : Yields (OfNode false) (.ok (mask lo hi mark)) := yields_colInt _ _ _ _

theorem filterInt_yields (op : CompareOp) (lo hi : ℤ) (mark : Bool) (c : ℤ) :
    Yields (OfNode false) (.ok (filterInt op lo hi mark c)) := by
  unfold filterInt
  split_ifs <;> exact yields_mask _ _ _

theorem filterText_yields (op : CompareOp) (lo hi : Str) (mark : Bool) (c : Str) :
    Yields (OfNode false) (.ok (filterText op lo hi mark c)) := by
  unfold filterText
  split_ifs <;> exact yields_mask _ _ _

theorem arithRegisters_yields (op : ArithOp) (t : IntType) (lo lo' hi hi' : ℤ) (mark : Bool) :
    Yields (OfNode false) (arithRegisters op t lo lo' hi hi' mark) :=
  yields_bind fun _ => yields_bind fun _ => yields_colInt _ _ _ _

theorem binary_yields (op : BinaryOp) (a b : Arg) : Yields (OfNode op.isText) (binary op a b) := by
  cases op with
  | compare op =>
    cases a <;> cases b <;>
      first
      | exact yields_error _
      | exact yields_mask _ _ _
      | exact filterInt_yields _ _ _ _ _
      | exact filterText_yields _ _ _ _ _
      | exact yields_ite (yields_mask _ _ _) (yields_mask _ _ _)
  | logic op =>
    cases a <;> cases b <;>
      first
      | exact yields_error _
      | exact yields_mask _ _ _
      | exact yields_ite (yields_mask _ _ _) (yields_ite (yields_mask _ _ _) (yields_mask _ _ _))
  | arith op =>
    cases a <;> cases b <;>
      first
      | exact yields_error _
      | exact yields_ite (arithRegisters_yields _ _ _ _ _ _ _) (yields_error _)
      | exact yields_ite (yields_ite (yields_colInt _ _ _ _) (arithRegisters_yields _ _ _ _ _ _ _)) (yields_error _)
  | left =>
    cases a <;> cases b <;>
      first
      | exact yields_error _
      | exact yields_ite (yields_colText _ _ _) (yields_error _)
      | exact yields_ite (yields_ite (yields_colText _ _ _) (yields_colText _ _ _)) (yields_error _)
  | right =>
    cases a <;> cases b <;>
      first
      | exact yields_error _
      | exact yields_ite (yields_bind fun _ => yields_colText _ _ _) (yields_error _)
      | exact yields_ite (yields_bind fun _ => yields_bind fun _ => yields_colText _ _ _) (yields_error _)
      | exact yields_ite (yields_ite (yields_colText _ _ _) (yields_bind fun _ => yields_bind fun _ =>
          yields_colText _ _ _)) (yields_error _)
  | concat =>
    cases a <;> cases b <;>
      first
      | exact yields_error _
      | exact yields_colText _ _ _
      | exact yields_ite (yields_colText _ _ _) (yields_colText _ _ _)

theorem unary_yields (op : UnaryOp) (a : Arg) : Yields (OfNode op.isText) (unary op a) := by
  cases op with
  | logicalNot => cases a <;> first | exact yields_error _ | exact yields_mask _ _ _
  | minus => cases a <;> first | exact yields_error _ | exact yields_ite (yields_colInt _ _ _ _) (yields_error _)
  | abs => cases a <;> first | exact yields_error _ | exact yields_ite (yields_colInt _ _ _ _) (yields_error _)
  | sign => cases a <;> first | exact yields_error _ | exact yields_ite (yields_colInt _ _ _ _) (yields_error _)
  | date op =>
    rcases a with ⟨t, _⟩ | _ | ⟨_, t, _, _, _⟩ | _
    · cases t <;> first | exact yields_error _ | exact yields_colInt _ _ _ _
    · exact yields_error _
    · cases t <;> first | exact yields_error _ | exact yields_colInt _ _ _ _
    · exact yields_error _
  | text op => cases a <;> first | exact yields_error _ | exact yields_colText _ _ _
  | len => cases a <;> first | exact yields_error _ | exact yields_colInt _ _ _ _
  | cast t => cases a <;> first | exact yields_error _ | exact yields_ite (yields_colInt _ _ _ _) (yields_error _)

theorem rowBinary_yields (op : BinaryOp) (x y : Value) :
    Yields (fun z => z.isText = op.isText) (rowBinary op x y) := by
  cases op <;> cases x <;> cases y <;>
    first
    | exact yields_error _
    | exact yields_ok rfl
    | exact yields_ite (yields_error _) (yields_ok rfl)
    | exact yields_ite (yields_bind fun _ => yields_ok rfl) (yields_error _)

theorem rowUnary_yields (op : UnaryOp) (x : Value) : Yields (fun z => z.isText = op.isText) (rowUnary op x) := by
  rcases x with ⟨t, v⟩ | s
  · cases op <;> first
      | exact yields_error _
      | exact yields_ok rfl
      | exact yields_ite (yields_ok rfl) (yields_error _)
      | (cases t <;> first | exact yields_error _ | exact yields_ok rfl)
  · cases op <;> first | exact yields_error _ | exact yields_ok rfl

/-- an operand and its values: a literal is the same in every row, a column lies between its statistics -/
def Describes (rows : List Row) (e : Expr) : Arg → Prop
  | .constInt _ c => ∀ row ∈ rows, ∃ t, rowValue row e = .ok (.int t c)
  | .constText s => ∀ row ∈ rows, rowValue row e = .ok (.text s)
  | .colInt raw _ lo hi mark =>
    (∀ row ∈ rows, Yields (fun v => v.isText = false) (rowValue row e)) ∧
      (raw = true → mark = false ∧ ∀ v, Takes rows e v → lo ≤ v ∧ v ≤ hi)
  | .colText raw lo hi mark =>
    (∀ row ∈ rows, Yields (fun v => v.isText = true) (rowValue row e)) ∧
      (raw = true → mark = false ∧ ∀ s, TakesText rows e s → cString lo ≤ s ∧ s ≤ cString hi)

theorem cString_terminated {s : Str} (h : (0 : UInt8) ∉ s) : cString (terminated s) = s := by
  unfold cString terminated
  rw [List.takeWhile_append_of_pos]
  · simp
  · intro c hc
    have : c ≠ 0 := fun h0 => h (h0 ▸ hc)
    simpa using this

/-- the registers of a node say nothing but their type -/
theorem describes_ofNode {rows : List Row} {e : Expr} {isText : Bool} {a : Arg} (ha : OfNode isText a)
    (hrows : ∀ row ∈ rows, Yields (fun v => v.isText = isText) (rowValue row e)) : Describes rows e a := by
  cases a with
  | constInt t c => exact ha.elim
  | constText s => exact ha.elim
  | colInt raw t lo hi mark =>
    obtain ⟨hraw, rfl⟩ := ha
    exact ⟨hrows, fun h => absurd (h.symm.trans hraw) (by decide)⟩
  | colText raw lo hi mark =>
    obtain ⟨hraw, rfl⟩ := ha
    exact ⟨hrows, fun h => absurd (h.symm.trans hraw) (by decide)⟩

variable {block : Block} {shortColumnNames : String → Option String} {rows : List Row}

theorem describes_leaf {l : Operand} (hbounded : Bounded block rows (.leaf l)) :
    Describes rows (.leaf l) (block.operand l) := by
  cases l with
  | intColumn table column t =>
    refine ⟨fun row _ => yields_ok rfl, fun _ => ⟨rfl, ?_⟩⟩
    rintro v ⟨row, hrow, u, hv⟩
    cases hv
    exact hbounded row hrow _ List.mem_cons_self
  | textColumn table column =>
    refine ⟨fun row _ => yields_ok rfl, fun _ => ⟨rfl, ?_⟩⟩
    rintro s ⟨row, hrow, hs⟩
    cases hs
    obtain ⟨hlo, hhi, hmin, hmax⟩ := hbounded row hrow _ List.mem_cons_self
    rw [cString_terminated hmin, cString_terminated hmax]
    exact ⟨hlo, hhi⟩
  | intLiteral text t value => exact fun row _ => ⟨t, rfl⟩
  | textLiteral text value => exact fun row _ => rfl

theorem eval_describes {e : Expr} {a : Arg} (hbounded : Bounded block rows e)
    (ha : eval (block.machine shortColumnNames) e = .ok a) : Describes rows e a := by
  cases e with
  | leaf l =>
    cases ha
    exact describes_leaf hbounded
  | unary op e =>
    have hnode : Yields (OfNode op.isText) (eval (block.machine shortColumnNames) (.unary op e)) :=
      yields_bind fun v => unary_yields op v
    exact describes_ofNode (hnode a ha) fun row _ => yields_bind fun v => rowUnary_yields op v
  | binary op l r =>
    have hnode : Yields (OfNode op.isText) (eval (block.machine shortColumnNames) (.binary op l r)) :=
      yields_bind fun v => yields_bind fun w => binary_yields op v w
    exact describes_ofNode (hnode a ha) fun row _ => yields_bind fun v => yields_bind fun w => rowBinary_yields op v w

/-! ## Comparisons -/

theorem missed_mask {wanted lo hi mark : Bool} :
    Missed wanted (mask lo hi mark) ↔ mark = false ∧ lo = (!wanted) ∧ hi = !wanted := by
  cases lo <;> cases hi <;> cases wanted <;> simp [Missed, mask]

/-- a row's value of a node -/
theorem takes_binary {op : BinaryOp} {l r : Expr} {v : ℤ} (h : Takes rows (.binary op l r) v) :
    ∃ row ∈ rows, ∃ x y t, rowValue row l = .ok x ∧ rowValue row r = .ok y ∧ rowBinary op x y = .ok (.int t v) := by
  obtain ⟨row, hrow, t, hv⟩ := h
  refine ⟨row, hrow, ?_⟩
  obtain ⟨x, hx, hv⟩ := bind_eq_ok.1 hv
  obtain ⟨y, hy, hv⟩ := bind_eq_ok.1 hv
  exact ⟨x, y, t, hx, hy, hv⟩

/-- a row that has the wanted outcome of a comparison -/
theorem reached_compare {wanted : Bool} {op : CompareOp} {l r : Expr}
    (h : Reached rows wanted (.binary (.compare op) l r)) :
    ∃ row ∈ rows,
      (∃ t u x y, rowValue row l = .ok (.int t x) ∧ rowValue row r = .ok (.int u y) ∧ op.test x y = wanted) ∨
        ∃ x y, rowValue row l = .ok (.text x) ∧ rowValue row r = .ok (.text y) ∧ op.test x y = wanted := by
  obtain ⟨v, hv, hw⟩ := h
  obtain ⟨row, hrow, x, y, t, hx, hy, hrv⟩ := takes_binary hv
  refine ⟨row, hrow, ?_⟩
  have truth : ∀ b : Bool, b.toInt = v → b = wanted := by
    intro b hb
    rw [← hw, ← hb]
    cases b <;> rfl
  rcases x with ⟨t', x⟩ | x <;> rcases y with ⟨u', y⟩ | y <;> simp only [rowBinary, reduceCtorEq, Except.ok.injEq,
    Value.int.injEq] at hrv
  · exact .inl ⟨t', u', x, y, hx, hy, truth _ hrv.2⟩
  · exact .inr ⟨x, y, hx, hy, truth _ hrv.2⟩

section

variable {α : Type} [LT α] [LE α] [DecidableLT α] [DecidableLE α] [DecidableEq α] {lo hi c v : α} {X : α → Prop}

omit [LT α] [DecidableLT α] in
theorem inside_equals {wanted raw : Bool} (hfits : IntervalFits wanted .equals raw lo hi c X)
    (hraw : raw = true → ∀ v, X v → lo ≤ v ∧ v ≤ hi) (hv : X v) (htest : decide (v = c) = wanted) :
    decide (lo ≤ c ∧ c ≤ hi) = wanted := by
  cases wanted with
  | true =>
    obtain rfl : v = c := of_decide_eq_true htest
    have hinside : lo ≤ v ∧ v ≤ hi := by
      rcases hfits with h | h | h
      · exact hraw h v hv
      · exact h
      · exact absurd hv h
    exact decide_eq_true hinside
  | false =>
    rcases hfits with h | h
    · exact decide_eq_false h
    · exact absurd (h v hv) (of_decide_eq_false htest)

omit [LT α] [DecidableLT α] in
theorem inside_notEquals {wanted raw : Bool} (hfits : IntervalFits wanted .notEquals raw lo hi c X) (hv : X v)
    (htest : decide (v ≠ c) = wanted) : decide (lo ≤ c ∧ c ≤ hi) = wanted := by
  cases wanted with
  | true =>
    rcases hfits with h | h
    · exact decide_eq_true h
    · exact absurd (h v hv) (of_decide_eq_true htest)
  | false =>
    obtain rfl : v = c := not_not.1 (of_decide_eq_false htest)
    rcases hfits with h | h
    · exact decide_eq_false h
    · exact absurd hv h

/-- the interval test shows the outcome that a value has -/
theorem inside_of_fits {wanted raw : Bool} {op : CompareOp} (hop : op.interval = true)
    (hfits : IntervalFits wanted op raw lo hi c X) (hraw : raw = true → ∀ v, X v → lo ≤ v ∧ v ≤ hi) (hv : X v)
    (htest : op.test v c = wanted) : decide (lo ≤ c ∧ c ≤ hi) = wanted := by
  cases op with
  | equals => exact inside_equals hfits hraw hv htest
  | notEquals => exact inside_notEquals hfits hv htest
  | notEqualsGtLt =>
    have hfits' : IntervalFits wanted .notEquals raw lo hi c X := by cases wanted <;> exact hfits
    exact inside_notEquals hfits' hv htest
  | greater => cases hop
  | less => cases hop
  | greaterEq => cases hop
  | lessEq => cases hop

/-- `=` and `!=` do not tell their operands apart -/
theorem interval_test_comm {op : CompareOp} (hop : op.interval = true) (a b : α) : op.test a b = op.test b a := by
  cases op with
  | equals => simp only [CompareOp.test, eq_comm]
  | notEquals => simp only [CompareOp.test, ne_comm]
  | notEqualsGtLt => simp only [CompareOp.test, ne_comm]
  | greater => cases hop
  | less => cases hop
  | greaterEq => cases hop
  | lessEq => cases hop

end

/-- an ordering that holds at a value between two others, or fails there, does so at one of the two -/
theorem ordering_ends {op : CompareOp} (hop : op.interval = false) {lo hi v : ℤ}
    (hv : lo ≤ v ∧ v ≤ hi ∨ hi ≤ v ∧ v ≤ lo) (c : ℤ) :
    op.test lo c = op.test v c ∨ op.test hi c = op.test v c := by
  cases op with
  | greater => simp only [CompareOp.test, decide_eq_decide]; omega
  | less => simp only [CompareOp.test, decide_eq_decide]; omega
  | greaterEq => simp only [CompareOp.test, decide_eq_decide]; omega
  | lessEq => simp only [CompareOp.test, decide_eq_decide]; omega
  | equals => cases hop
  | notEquals => cases hop
  | notEqualsGtLt => cases hop

theorem PairFits.not_reached {wanted atMin atMax : Bool} {e : Expr} (h : PairFits rows wanted e atMin atMax)
    (hmin : atMin = !wanted) (hmax : atMax = !wanted) : ¬ Reached rows wanted e := by
  intro hreached
  rcases h hreached with h | h
  · rw [hmin] at h
    cases wanted <;> cases h
  · rw [hmax] at h
    cases wanted <;> cases h

/-- a column or a node against a literal, in the column's order of operands -/
theorem filterInt_sound {wanted raw mark : Bool} {op : CompareOp} {lo hi c v : ℤ} {X : ℤ → Prop} {e : Expr}
    (hraw : raw = true → ∀ v, X v → lo ≤ v ∧ v ≤ hi)
    (hfits : mark = true ∨
      if op.interval then IntervalFits wanted op raw lo hi c X
      else raw = true ∨ PairFits rows wanted e (op.test lo c) (op.test hi c))
    (hmissed : Missed wanted (filterInt op lo hi mark c)) (hv : X v) (hreached : Reached rows wanted e) :
    op.test v c ≠ wanted := by
  intro htest
  unfold filterInt at hmissed
  cases hop : op.interval with
  | true =>
    rw [hop, if_pos rfl] at hmissed hfits
    obtain ⟨rfl, hmin, -⟩ := missed_mask.1 hmissed
    rcases hfits with h | h
    · cases h
    · rw [inside_of_fits hop h hraw hv htest] at hmin
      cases wanted <;> cases hmin
  | false =>
    rw [hop, if_neg (by decide)] at hmissed hfits
    obtain ⟨rfl, hmin, hmax⟩ := missed_mask.1 hmissed
    rcases hfits with h | h | h
    · cases h
    · rcases ordering_ends hop (.inl (hraw h v hv)) c with h | h
      · rw [h, htest] at hmin
        cases wanted <;> cases hmin
      · rw [h, htest] at hmax
        cases wanted <;> cases hmax
    · exact h.not_reached hmin hmax hreached

/-- orderings of texts are not implemented -/
theorem compareStrings_ordering {op : CompareOp} (hop : ¬ op.interval = true) (a b : Str) :
    op.compareStrings a b = false := by
  cases op <;> first | rfl | exact absurd rfl hop

theorem filterText_sound {wanted raw mark : Bool} {op : CompareOp} {lo hi c s : Str} {X : Str → Prop} {e : Expr}
    (hraw : raw = true → ∀ s, X s → cString lo ≤ s ∧ s ≤ cString hi)
    (hfits : mark = true ∨
      if op.interval then IntervalFits wanted op raw (cString lo) (cString hi) c X
      else PairFits rows wanted e false false)
    (hmissed : Missed wanted (filterText op lo hi mark c)) (hs : X s) (hreached : Reached rows wanted e) :
    op.interval = true ∧ op.test s c ≠ wanted := by
  unfold filterText at hmissed
  cases hop : op.interval with
  | true =>
    refine ⟨rfl, fun htest => ?_⟩
    rw [hop, if_pos rfl] at hmissed hfits
    obtain ⟨rfl, hmin, -⟩ := missed_mask.1 hmissed
    rcases hfits with h | h
    · cases h
    · rw [inside_of_fits hop h hraw hs htest] at hmin
      cases wanted <;> cases hmin
  | false =>
    rw [hop, if_neg (by decide)] at hmissed hfits
    obtain ⟨rfl, hmin, hmax⟩ := missed_mask.1 hmissed
    rw [compareStrings_ordering (Bool.eq_false_iff.1 hop)] at hmin hmax
    rcases hfits with h | h
    · cases h
    · exact absurd hreached (h.not_reached hmin hmax)

def Arg.isText : Arg → Bool
  | .constInt _ _ | .colInt _ _ _ _ _ => false
  | .constText _ | .colText _ _ _ _ => true

theorem describes_isText {e : Expr} {a : Arg} {v : Value} {row : Row} (h : Describes rows e a) (hrow : row ∈ rows)
    (hv : rowValue row e = .ok v) : v.isText = a.isText := by
  cases a with
  | constInt t c =>
    obtain ⟨u, hc⟩ := h row hrow
    cases hv.symm.trans hc
    rfl
  | constText s =>
    cases hv.symm.trans (h row hrow)
    rfl
  | colInt raw t lo hi mark => exact h.1 row hrow v hv
  | colText raw lo hi mark => exact h.1 row hrow v hv

theorem describes_constInt {e : Expr} {t u : IntType} {c v : ℤ} {row : Row} (h : Describes rows e (.constInt t c))
    (hrow : row ∈ rows) (hv : rowValue row e = .ok (.int u v)) : v = c := by
  obtain ⟨_, hc⟩ := h row hrow
  cases hv.symm.trans hc
  rfl

theorem describes_constText {e : Expr} {c s : Str} {row : Row} (h : Describes rows e (.constText c)) (hrow : row ∈ rows)
    (hs : rowValue row e = .ok (.text s)) : s = c := by
  cases hs.symm.trans (h row hrow)
  rfl

/-- two columns, or registers -/
theorem registers_sound {wanted raw raw' mark mark' atMin atMax : Bool} {e : Expr} {c : Arg}
    (hfits : raw = true ∧ raw' = true ∨ mark = true ∨ mark' = true ∨ PairFits rows wanted e atMin atMax)
    (hc : (if raw && raw' then .ok (mask true true true) else .ok (mask atMin atMax (mark || mark'))) =
      (Except.ok c : Except Error Arg))
    (hmissed : Missed wanted c) : ¬ Reached rows wanted e := by
  split_ifs at hc with hraw
  · cases hc
    cases (missed_mask.1 hmissed).1
  · cases hc
    obtain ⟨hmark, hmin, hmax⟩ := missed_mask.1 hmissed
    obtain ⟨rfl, rfl⟩ := Bool.or_eq_false_iff.1 hmark
    rcases hfits with ⟨rfl, rfl⟩ | h | h | h
    · exact absurd rfl hraw
    · cases h
    · cases h
    · exact h.not_reached hmin hmax

/-- comparisons of integers -/
theorem compareInt_sound {wanted : Bool} {op : CompareOp} {l r : Expr} {a b c : Arg} (ha : a.isText = false)
    (hb : b.isText = false) (hl : Describes rows l a) (hr : Describes rows r b)
    (hfits : CompareFits rows wanted op l r a b) (hc : filter op a b = .ok c) (hmissed : Missed wanted c) :
    ¬ Reached rows wanted (.binary (.compare op) l r) := by
  intro hreached
  obtain ⟨row, hrow, ⟨t, u, x, y, hx, hy, htest⟩ | ⟨x, y, hx, hy, htest⟩⟩ := reached_compare hreached
  · cases a with
    | constText s => cases ha
    | colText raw lo hi mark => cases ha
    | constInt t' k =>
      obtain rfl := describes_constInt hl hrow hx
      cases b with
      | constText s => cases hb
      | colText raw lo hi mark => cases hb
      | constInt u' k' =>
        obtain rfl := describes_constInt hr hrow hy
        cases hc
        obtain ⟨-, hmin, -⟩ := missed_mask.1 hmissed
        rw [htest] at hmin
        cases wanted <;> cases hmin
      | colInt raw u' lo hi mark =>
        cases hc
        cases hop : op.interval with
        | true =>
          have hfits' : mark = true ∨ if op.interval then IntervalFits wanted op raw lo hi x (Takes rows r)
              else raw = true ∨ PairFits rows wanted (.binary (.compare op) l r) (op.test lo x) (op.test hi x) := by
            rw [hop, if_pos rfl]
            simpa only [CompareFits, hop, if_true] using hfits
          rw [interval_test_comm hop] at htest
          exact filterInt_sound (fun h => (hr.2 h).2) hfits' hmissed ⟨row, hrow, u, hy⟩ hreached htest
        | false =>
          simp only [CompareFits, hop, if_neg (by decide : ¬ (false = true))] at hfits
          simp only [filterInt, hop, if_neg (by decide : ¬ (false = true))] at hmissed
          obtain ⟨rfl, hmin, hmax⟩ := missed_mask.1 hmissed
          rcases hfits with h | h
          · cases h
          · exact h.not_reached hmin hmax hreached
    | colInt raw t' lo hi mark =>
      cases b with
      | constText s => cases hb
      | colText raw lo hi mark => cases hb
      | constInt u' k' =>
        obtain rfl := describes_constInt hr hrow hy
        cases hc
        exact filterInt_sound (fun h => (hl.2 h).2) hfits hmissed ⟨row, hrow, t, hx⟩ hreached htest
      | colInt raw' u' lo' hi' mark' => exact registers_sound hfits hc hmissed hreached
  · cases (describes_isText hl hrow hx).trans ha

/-- comparisons of texts -/
theorem compareText_sound {wanted : Bool} {op : CompareOp} {l r : Expr} {a b c : Arg} (ha : a.isText = true)
    (hb : b.isText = true) (hl : Describes rows l a) (hr : Describes rows r b)
    (hfits : CompareFits rows wanted op l r a b) (hc : filter op a b = .ok c) (hmissed : Missed wanted c) :
    ¬ Reached rows wanted (.binary (.compare op) l r) := by
  intro hreached
  obtain ⟨row, hrow, ⟨t, u, x, y, hx, hy, htest⟩ | ⟨x, y, hx, hy, htest⟩⟩ := reached_compare hreached
  · cases (describes_isText hl hrow hx).trans ha
  · cases a with
    | constInt t k => cases ha
    | colInt raw t lo hi mark => cases ha
    | constText k =>
      obtain rfl := describes_constText hl hrow hx
      cases b with
      | constInt t k => cases hb
      | colInt raw t lo hi mark => cases hb
      | constText k' =>
        cases hc
        obtain ⟨-, hmin, hmax⟩ := missed_mask.1 hmissed
        exact PairFits.not_reached hfits hmin hmax hreached
      | colText raw lo hi mark =>
        cases hc
        have hsound := filterText_sound (fun h => (hr.2 h).2) hfits hmissed ⟨row, hrow, hy⟩ hreached
        rw [interval_test_comm hsound.1] at htest
        exact hsound.2 htest
    | colText raw lo hi mark =>
      cases b with
      | constInt t k => cases hb
      | colInt raw t lo hi mark => cases hb
      | constText k' =>
        obtain rfl := describes_constText hr hrow hy
        cases hc
        exact (filterText_sound (fun h => (hl.2 h).2) hfits hmissed ⟨row, hrow, hx⟩ hreached).2 htest
      | colText raw' lo' hi' mark' => exact registers_sound hfits hc hmissed hreached

theorem filter_isText {op : CompareOp} {a b c : Arg} (hc : filter op a b = .ok c) : a.isText = b.isText := by
  cases a <;> cases b <;> first | rfl | cases hc

theorem compare_sound {wanted : Bool} {op : CompareOp} {l r : Expr} {a b c : Arg} (hl : Describes rows l a)
    (hr : Describes rows r b) (hfits : CompareFits rows wanted op l r a b) (hc : filter op a b = .ok c)
    (hmissed : Missed wanted c) : ¬ Reached rows wanted (.binary (.compare op) l r) := by
  cases ha : a.isText with
  | false => exact compareInt_sound ha ((filter_isText hc).symm.trans ha) hl hr hfits hc hmissed
  | true => exact compareText_sound ha ((filter_isText hc).symm.trans ha) hl hr hfits hc hmissed

/-! ### Exactness -/

section

variable {α : Type} [LT α] [LE α] [DecidableLT α] [DecidableLE α] [DecidableEq α] {lo hi c : α} {X : α → Prop}

omit [LT α] [DecidableLT α] in
theorem equals_exact {wanted raw : Bool}
    (h : decide (lo ≤ c ∧ c ≤ hi) = (!wanted) → ∀ v, X v → decide (v = c) ≠ wanted) :
    IntervalFits wanted .equals raw lo hi c X := by
  by_cases hinside : lo ≤ c ∧ c ≤ hi
  · cases wanted with
    | true => exact .inr (.inl hinside)
    | false => exact .inr fun v hv => by simpa using h (decide_eq_true hinside) v hv
  · cases wanted with
    | true => exact .inr (.inr fun hc => h (decide_eq_false hinside) c hc (decide_eq_true rfl))
    | false => exact .inl hinside

omit [LT α] [DecidableLT α] in
theorem notEquals_exact {wanted raw : Bool}
    (h : decide (lo ≤ c ∧ c ≤ hi) = (!wanted) → ∀ v, X v → decide (v ≠ c) ≠ wanted) :
    IntervalFits wanted .notEquals raw lo hi c X := by
  by_cases hinside : lo ≤ c ∧ c ≤ hi
  · cases wanted with
    | true => exact .inl hinside
    | false => exact .inr fun hc => h (decide_eq_true hinside) c hc (by simp)
  · cases wanted with
    | true => exact .inr fun v hv => by simpa using h (decide_eq_false hinside) v hv
    | false => exact .inl hinside

theorem interval_exact {wanted raw : Bool} {op : CompareOp} (hop : op.interval = true)
    (h : decide (lo ≤ c ∧ c ≤ hi) = (!wanted) → ∀ v, X v → op.test v c ≠ wanted) :
    IntervalFits wanted op raw lo hi c X := by
  cases op with
  | equals => exact equals_exact h
  | notEquals => exact notEquals_exact h
  | notEqualsGtLt =>
    have hfits : IntervalFits wanted .notEquals raw lo hi c X := notEquals_exact h
    cases wanted <;> exact hfits
  | greater => cases hop
  | less => cases hop
  | greaterEq => cases hop
  | lessEq => cases hop

end

theorem pairFits_exact {wanted atMin atMax : Bool} {e : Expr}
    (h : atMin = (!wanted) → atMax = (!wanted) → ¬ Reached rows wanted e) : PairFits rows wanted e atMin atMax := by
  intro hreached
  by_contra hother
  obtain ⟨hmin, hmax⟩ := not_or.1 hother
  exact h (Bool.eq_not_of_ne hmin) (Bool.eq_not_of_ne hmax) hreached

theorem reached_of_ints {wanted : Bool} {op : CompareOp} {l r : Expr} {row : Row} {t u : IntType} {x y : ℤ}
    (hrow : row ∈ rows) (hx : rowValue row l = .ok (.int t x)) (hy : rowValue row r = .ok (.int u y))
    (htest : op.test x y = wanted) : Reached rows wanted (.binary (.compare op) l r) := by
  refine ⟨(op.test x y).toInt, ⟨row, hrow, .int8, ?_⟩, ?_⟩
  · exact bind_eq_ok.2 ⟨_, hx, bind_eq_ok.2 ⟨_, hy, rfl⟩⟩
  · rw [← htest]
    cases op.test x y <;> rfl

theorem reached_of_texts {wanted : Bool} {op : CompareOp} {l r : Expr} {row : Row} {x y : Str} (hrow : row ∈ rows)
    (hx : rowValue row l = .ok (.text x)) (hy : rowValue row r = .ok (.text y)) (htest : op.test x y = wanted) :
    Reached rows wanted (.binary (.compare op) l r) := by
  refine ⟨(op.test x y).toInt, ⟨row, hrow, .int8, ?_⟩, ?_⟩
  · exact bind_eq_ok.2 ⟨_, hx, bind_eq_ok.2 ⟨_, hy, rfl⟩⟩
  · rw [← htest]
    cases op.test x y <;> rfl

theorem filterInt_exact {wanted raw mark : Bool} {op : CompareOp} {lo hi c : ℤ} {X : ℤ → Prop} {e : Expr}
    (h : Missed wanted (filterInt op lo hi mark c) → ¬ Reached rows wanted e)
    (hX : op.interval = true → ∀ v, X v → op.test v c = wanted → Reached rows wanted e) :
    mark = true ∨ if op.interval then IntervalFits wanted op raw lo hi c X
      else PairFits rows wanted e (op.test lo c) (op.test hi c) := by
  refine or_iff_not_imp_left.2 fun hmark => ?_
  obtain rfl : mark = false := by simpa using hmark
  unfold filterInt at h
  split_ifs at h ⊢ with hop
  · exact interval_exact hop fun hinside v hv htest =>
      h (missed_mask.2 ⟨rfl, hinside, hinside⟩) (hX hop v hv htest)
  · exact pairFits_exact fun hmin hmax => h (missed_mask.2 ⟨rfl, hmin, hmax⟩)

theorem filterText_exact {wanted raw mark : Bool} {op : CompareOp} {lo hi c : Str} {X : Str → Prop} {e : Expr}
    (h : Missed wanted (filterText op lo hi mark c) → ¬ Reached rows wanted e)
    (hX : op.interval = true → ∀ s, X s → op.test s c = wanted → Reached rows wanted e) :
    mark = true ∨ if op.interval then IntervalFits wanted op raw (cString lo) (cString hi) c X
      else PairFits rows wanted e false false := by
  refine or_iff_not_imp_left.2 fun hmark => ?_
  obtain rfl : mark = false := by simpa using hmark
  unfold filterText at h
  split_ifs at h ⊢ with hop
  · exact interval_exact hop fun hinside s hs htest =>
      h (missed_mask.2 ⟨rfl, hinside, hinside⟩) (hX hop s hs htest)
  · rw [compareStrings_ordering hop, compareStrings_ordering hop] at h
    exact pairFits_exact fun hmin hmax => h (missed_mask.2 ⟨rfl, hmin, hmax⟩)

theorem registers_exact {wanted raw raw' mark mark' atMin atMax : Bool} {e : Expr}
    (h : ∀ c, (if raw && raw' then .ok (mask true true true) else .ok (mask atMin atMax (mark || mark'))) =
      (Except.ok c : Except Error Arg) → Missed wanted c → ¬ Reached rows wanted e) :
    raw = true ∧ raw' = true ∨ mark = true ∨ mark' = true ∨ PairFits rows wanted e atMin atMax := by
  refine or_iff_not_imp_left.2 fun hraw => or_iff_not_imp_left.2 fun hmark => or_iff_not_imp_left.2 fun hmark' => ?_
  obtain rfl : mark = false := by simpa using hmark
  obtain rfl : mark' = false := by simpa using hmark'
  rw [if_neg (by simpa using hraw)] at h
  exact pairFits_exact fun hmin hmax => h _ rfl (missed_mask.2 ⟨rfl, hmin, hmax⟩)

/-- a comparison that misses no row fits -/
theorem compare_exact {wanted : Bool} {op : CompareOp} {l r : Expr} {a b : Arg} (hl : Describes rows l a)
    (hr : Describes rows r b)
    (h : ∀ c, filter op a b = .ok c → Missed wanted c → ¬ Reached rows wanted (.binary (.compare op) l r)) :
    CompareFits rows wanted op l r a b := by
  cases a with
  | constInt t k =>
    cases b with
    | constInt u k' => trivial
    | constText s => trivial
    | colInt raw u lo hi mark =>
      refine filterInt_exact (h _ rfl) fun hop v hv htest => ?_
      obtain ⟨row, hrow, t', hy⟩ := hv
      obtain ⟨u', hx⟩ := hl row hrow
      exact reached_of_ints hrow hx hy (by rw [interval_test_comm hop, htest])
    | colText raw lo hi mark => trivial
  | constText k =>
    cases b with
    | constInt u k' => trivial
    | constText s => exact pairFits_exact fun hmin hmax => h _ rfl (missed_mask.2 ⟨rfl, hmin, hmax⟩)
    | colInt raw u lo hi mark => trivial
    | colText raw lo hi mark =>
      refine filterText_exact (h _ rfl) fun hop s hs htest => ?_
      obtain ⟨row, hrow, hy⟩ := hs
      exact reached_of_texts hrow (hl row hrow) hy (by rw [interval_test_comm hop, htest])
  | colInt raw t lo hi mark =>
    cases b with
    | constInt u k' =>
      have hfits : mark = true ∨ if op.interval then IntervalFits wanted op raw lo hi k' (Takes rows l)
          else PairFits rows wanted (.binary (.compare op) l r) (op.test lo k') (op.test hi k') := by
        refine filterInt_exact (h _ rfl) fun _ v hv htest => ?_
        obtain ⟨row, hrow, t', hx⟩ := hv
        obtain ⟨u', hy⟩ := hr row hrow
        exact reached_of_ints hrow hx hy htest
      refine hfits.imp_right fun hfits => ?_
      split_ifs at hfits ⊢
      · exact hfits
      · exact .inr hfits
    | constText s => trivial
    | colInt raw' u lo' hi' mark' => exact registers_exact h
    | colText raw' lo' hi' mark' => trivial
  | colText raw lo hi mark =>
    cases b with
    | constInt u k' => trivial
    | constText s =>
      refine filterText_exact (h _ rfl) fun _ s hs htest => ?_
      obtain ⟨row, hrow, hx⟩ := hs
      exact reached_of_texts hrow hx (hr row hrow) htest
    | colInt raw' u lo' hi' mark' => trivial
    | colText raw' lo' hi' mark' => exact registers_exact h

/-- an ordering fits when the values of the rows lie between the two registers -/
theorem pairFits_ordering {wanted : Bool} {op : CompareOp} (hop : op.interval = false) {l r : Expr} {lo hi c : ℤ}
    {u : IntType} (hl : ∀ v, Takes rows l v → lo ≤ v ∧ v ≤ hi ∨ hi ≤ v ∧ v ≤ lo)
    (hr : Describes rows r (.constInt u c)) :
    PairFits rows wanted (.binary (.compare op) l r) (op.test lo c) (op.test hi c) := by
  intro hreached
  obtain ⟨row, hrow, ⟨t, u, x, y, hx, hy, htest⟩ | ⟨x, y, hx, hy, htest⟩⟩ := reached_compare hreached
  · obtain rfl := describes_constInt hr hrow hy
    rw [← htest]
    exact ordering_ends hop (hl x ⟨row, hrow, t, hx⟩) y
  · cases describes_isText hr hrow hy

/-! ## Logical operations -/

/-- a row that has the wanted outcome of a logical operation -/
theorem reached_logic {wanted : Bool} {op : LogicOp} {l r : Expr} (h : Reached rows wanted (.binary (.logic op) l r)) :
    ∃ x y, Takes rows l x ∧ Takes rows r y ∧ op.test x y = wanted := by
  obtain ⟨v, hv, hw⟩ := h
  obtain ⟨row, hrow, x, y, t, hx, hy, hrv⟩ := takes_binary hv
  rcases x with ⟨t', x⟩ | x <;> rcases y with ⟨u', y⟩ | y <;> simp only [rowBinary, reduceCtorEq, Except.ok.injEq,
    Value.int.injEq] at hrv
  refine ⟨x, y, ⟨row, hrow, t', hx⟩, ⟨row, hrow, u', hy⟩, ?_⟩
  rw [← hw, ← hrv.2]
  cases op.test x y <;> rfl

theorem takes_constInt {e : Expr} {t : IntType} {c v : ℤ} (h : Describes rows e (.constInt t c))
    (hv : Takes rows e v) : v = c := by
  obtain ⟨row, hrow, u, hrv⟩ := hv
  exact describes_constInt h hrow hrv

/-- AND and OR of two registers: whether one of the two values is not zero, on either side -/
theorem merged_sound {op : LogicOp} {l r : Expr} {t u : IntType} {lo hi lo' hi' : ℤ} {mark mark' : Bool}
    (hl : Missed true (.colInt false t lo hi mark) → ¬ Reached rows true l)
    (hr : Missed true (.colInt false u lo' hi' mark') → ¬ Reached rows true r)
    (hleft : Kept (.colInt false t lo hi mark)) (hright : Kept (.colInt false u lo' hi' mark'))
    (hmissed : op.test (LogicOp.or.test lo hi).toInt (LogicOp.or.test lo' hi').toInt = false) :
    ¬ Reached rows true (.binary (.logic op) l r) := by
  intro hreached
  obtain ⟨x, y, hx, hy, htest⟩ := reached_logic hreached
  have zeroLeft : x ≠ 0 → LogicOp.or.test lo hi = true := by
    intro hne
    by_contra hzero
    obtain ⟨hlo, hhi⟩ : lo = 0 ∧ hi = 0 := by simpa [LogicOp.test] using hzero
    exact hl ⟨hleft ⟨hlo, hhi⟩, by simp [hlo], by simp [hhi]⟩ ⟨x, hx, by simpa using hne⟩
  have zeroRight : y ≠ 0 → LogicOp.or.test lo' hi' = true := by
    intro hne
    by_contra hzero
    obtain ⟨hlo, hhi⟩ : lo' = 0 ∧ hi' = 0 := by simpa [LogicOp.test] using hzero
    exact hr ⟨hright ⟨hlo, hhi⟩, by simp [hlo], by simp [hhi]⟩ ⟨y, hy, by simpa using hne⟩
  cases op with
  | and =>
    obtain ⟨hx0, hy0⟩ : x ≠ 0 ∧ y ≠ 0 := by simpa [LogicOp.test] using htest
    rw [zeroLeft hx0, zeroRight hy0] at hmissed
    cases hmissed
  | or =>
    have hxy : x ≠ 0 ∨ y ≠ 0 := by simpa [LogicOp.test, or_iff_not_imp_left] using htest
    rcases hxy with hx0 | hy0
    · rw [zeroLeft hx0] at hmissed
      generalize LogicOp.or.test lo' hi' = right at hmissed
      cases right <;> cases hmissed
    · rw [zeroRight hy0] at hmissed
      generalize LogicOp.or.test lo hi = left at hmissed
      cases left <;> cases hmissed

theorem logic_sound {wanted : Bool} {op : LogicOp} {l r : Expr} {a b c : Arg} {fitsLeft fitsRight : Prop}
    (hl : Describes rows l a) (hr : Describes rows r b)
    (ihl : fitsLeft → Missed true a → ¬ Reached rows true l)
    (ihr : fitsRight → Missed true b → ¬ Reached rows true r)
    (hfits : LogicFits rows wanted op l r fitsLeft fitsRight a b) (hc : logical op a b = .ok c)
    (hmissed : Missed wanted c) : ¬ Reached rows wanted (.binary (.logic op) l r) := by
  cases a with
  | constText s => cases b <;> cases hc
  | colText raw lo hi mark => cases b <;> cases hc
  | constInt t k =>
    cases b with
    | constText s => cases hc
    | colText raw lo hi mark => cases hc
    | constInt u k' =>
      cases hc
      intro hreached
      obtain ⟨x, y, hx, hy, htest⟩ := reached_logic hreached
      obtain rfl := takes_constInt hl hx
      obtain rfl := takes_constInt hr hy
      obtain ⟨-, hmin, -⟩ := missed_mask.1 hmissed
      rw [htest] at hmin
      cases wanted <;> cases hmin
    | colInt raw u lo hi mark =>
      cases hc
      obtain ⟨-, hmin, hmax⟩ := missed_mask.1 hmissed
      exact PairFits.not_reached hfits hmin hmax
  | colInt raw t lo hi mark =>
    cases b with
    | constText s => cases hc
    | colText raw' lo' hi' mark' => cases hc
    | constInt u k' =>
      cases hc
      obtain ⟨-, hmin, hmax⟩ := missed_mask.1 hmissed
      exact PairFits.not_reached hfits hmin hmax
    | colInt raw' u lo' hi' mark' =>
      simp only [logical] at hc
      simp only [LogicFits] at hfits
      split_ifs at hc hfits with hboth hone hwanted
      · cases hc
        cases (missed_mask.1 hmissed).1
      · cases hc
        obtain ⟨hmark, hmin, hmax⟩ := missed_mask.1 hmissed
        obtain ⟨rfl, rfl⟩ := Bool.or_eq_false_iff.1 hmark
        rcases hfits with h | h | h
        · cases h
        · cases h
        · exact h.not_reached hmin hmax
      · cases hc
        obtain ⟨rfl, rfl⟩ : raw = false ∧ raw' = false := by simpa using hone
        subst hwanted
        obtain ⟨hleft, hright, fl, fr⟩ := hfits
        exact merged_sound (ihl fl) (ihr fr) hleft hright (missed_mask.1 hmissed).2.1
      · cases hc
        obtain rfl : wanted = false := by simpa using hwanted
        rcases hfits with h | h
        · cases h.symm.trans (missed_mask.1 hmissed).2.1
        · exact h

/-! ## Clauses -/

theorem value_sound {wanted : Bool} {e : Expr} {a : Arg} (hl : Describes rows e a) (hfits : ValueFits rows wanted e a)
    (hmissed : Missed wanted a) : ¬ Reached rows wanted e := by
  cases a with
  | constInt t c =>
    rintro ⟨v, hv, hw⟩
    obtain rfl := takes_constInt hl hv
    have hother : decide (v ≠ 0) = !wanted := hmissed
    rw [hw] at hother
    cases wanted <;> cases hother
  | constText s => exact hmissed.elim
  | colInt raw t lo hi mark =>
    obtain ⟨rfl, hmin, hmax⟩ := hmissed
    rcases hfits with h | h
    · cases h
    · exact h.not_reached hmin hmax
  | colText raw lo hi mark => exact hmissed.elim

/-- a column taken as a truth value, where a row that is not zero must not be missed -/
theorem valueFits_column {l : Operand} (hbounded : Bounded block rows (.leaf l)) :
    ValueFits rows true (.leaf l) (block.operand l) := by
  cases l with
  | intColumn table column t =>
    right
    rintro ⟨v, hv, hne⟩
    have hv0 : v ≠ 0 := of_decide_eq_true hne
    obtain ⟨hlo, hhi⟩ := ((describes_leaf hbounded).2 rfl).2 v hv
    by_contra hzero
    obtain ⟨hlo0, hhi0⟩ : block.intMin table column = 0 ∧ block.intMax table column = 0 := by simpa using hzero
    omega
  | textColumn table column => trivial
  | intLiteral text t value => trivial
  | textLiteral text value => trivial

theorem reached_not {wanted : Bool} {e : Expr} :
    Reached rows wanted (.unary .logicalNot e) ↔ Reached rows (!wanted) e := by
  constructor
  · rintro ⟨v, ⟨row, hrow, t, hv⟩, hw⟩
    obtain ⟨x, hx, hv⟩ := bind_eq_ok.1 hv
    rcases x with ⟨u, x⟩ | x
    · refine ⟨x, ⟨row, hrow, u, hx⟩, ?_⟩
      cases hv
      rw [← hw]
      by_cases hx0 : x = 0 <;> simp [hx0]
    · cases hv
  · rintro ⟨x, ⟨row, hrow, t, hx⟩, hw⟩
    refine ⟨(decide (x = 0)).toInt, ⟨row, hrow, .int8, bind_eq_ok.2 ⟨_, hx, rfl⟩⟩, ?_⟩
    by_cases hx0 : x = 0 <;> cases wanted <;> simp_all

theorem missed_not {wanted : Bool} {a : Arg} :
    (∃ c, logicalNot a = .ok c ∧ Missed wanted c) ↔ Missed (!wanted) a := by
  cases a with
  | constInt t k => by_cases hk : k = 0 <;> cases wanted <;> simp [logicalNot, mask, Missed, hk]
  | constText s => simp [logicalNot, Missed]
  | colInt raw t lo hi mark =>
    by_cases hlo : lo = 0 <;> by_cases hhi : hi = 0 <;> cases wanted <;> simp [logicalNot, mask, Missed, hlo, hhi]
  | colText raw lo hi mark => simp [logicalNot, Missed]

theorem bounded_unary {op : UnaryOp} {e : Expr} (h : Bounded block rows (.unary op e)) : Bounded block rows e := h

theorem bounded_left {op : BinaryOp} {l r : Expr} (h : Bounded block rows (.binary op l r)) : Bounded block rows l :=
  fun row hrow x hx => h row hrow x (List.mem_append_left _ hx)

theorem bounded_right {op : BinaryOp} {l r : Expr} (h : Bounded block rows (.binary op l r)) : Bounded block rows r :=
  fun row hrow x hx => h row hrow x (List.mem_append_right _ hx)

/-- what two registers miss no row has: by induction on the clause, for both wanted outcomes -/
theorem fits_sound {e : Expr} {a : Arg} (hbounded : Bounded block rows e)
    (ha : eval (block.machine shortColumnNames) e = .ok a) {wanted : Bool}
    (hfits : Fits block shortColumnNames rows wanted e) (hmissed : Missed wanted a) : ¬ Reached rows wanted e := by
  induction e generalizing a wanted with
  | leaf l =>
    cases ha
    rcases hfits with rfl | hfits
    · exact value_sound (describes_leaf hbounded) (valueFits_column hbounded) hmissed
    · exact value_sound (describes_leaf hbounded) hfits hmissed
  | unary op e ih =>
    unfold Fits at hfits
    split_ifs at hfits with hop
    · subst hop
      obtain ⟨x, hx, hc⟩ := bind_eq_ok.1 ha
      exact fun hreached =>
        ih (bounded_unary hbounded) hx hfits (missed_not.1 ⟨a, hc, hmissed⟩) (reached_not.1 hreached)
    · exact value_sound (eval_describes hbounded ha) (hfits a ha) hmissed
  | binary op l r ihl ihr =>
    have hdescribes := eval_describes hbounded ha
    obtain ⟨x, hx, ha⟩ := bind_eq_ok.1 ha
    obtain ⟨y, hy, hc⟩ := bind_eq_ok.1 ha
    have hnode := hfits x y hx hy
    have hl := eval_describes (bounded_left hbounded) hx
    have hr := eval_describes (bounded_right hbounded) hy
    cases op with
    | compare op => exact compare_sound hl hr hnode hc hmissed
    | logic op =>
      exact logic_sound hl hr (ihl (bounded_left hbounded) hx) (ihr (bounded_right hbounded) hy) hnode hc hmissed
    | arith op => exact value_sound hdescribes (hnode a hc) hmissed
    | left => exact value_sound hdescribes (hnode a hc) hmissed
    | right => exact value_sound hdescribes (hnode a hc) hmissed
    | concat => exact value_sound hdescribes (hnode a hc) hmissed

/-- one comparison, below any number of NOT -/
def oneComparison : Expr → Bool
  | .binary (.compare _) _ _ => true
  | .unary .logicalNot e => oneComparison e
  | _ => false

/-- a clause of one comparison that misses no row fits -/
theorem fits_exact {e : Expr} (hone : oneComparison e = true) (hbounded : Bounded block rows e) {wanted : Bool}
    (h : ∀ a, eval (block.machine shortColumnNames) e = .ok a → Missed wanted a → ¬ Reached rows wanted e) :
    Fits block shortColumnNames rows wanted e := by
  induction e generalizing wanted with
  | leaf l => cases hone
  | unary op e ih =>
    cases op with
    | logicalNot =>
      unfold Fits
      rw [if_pos rfl]
      refine ih hone (bounded_unary hbounded) fun a ha hmissed hreached => ?_
      obtain ⟨c, hc, hmissed'⟩ := missed_not.2 hmissed
      exact h c (bind_eq_ok.2 ⟨a, ha, hc⟩) hmissed' (reached_not.2 hreached)
    | minus => cases hone
    | abs => cases hone
    | sign => cases hone
    | date op => cases hone
    | text op => cases hone
    | len => cases hone
    | cast t => cases hone
  | binary op l r ihl ihr =>
    cases op with
    | compare op =>
      intro a b ha hb
      refine compare_exact (eval_describes (bounded_left hbounded) ha) (eval_describes (bounded_right hbounded) hb) ?_
      exact fun c hc hmissed => h c (bind_eq_ok.2 ⟨a, ha, bind_eq_ok.2 ⟨b, hb, hc⟩⟩) hmissed
    | logic op => cases hone
    | arith op => cases hone
    | left => cases hone
    | right => cases hone
    | concat => cases hone

theorem whereResultCol_zero {t : IntType} {lo hi : ℤ} {mark : Bool} :
    whereResultCol lo hi mark = 0 ↔ Missed true (.colInt false t lo hi mark) := by
  cases mark with
  | true => simp [whereResultCol, Missed]
  | false => by_cases hlo : lo = 0 <;> by_cases hhi : hi = 0 <;> simp [whereResultCol, Missed, hlo, hhi]

/-- a clause that the code finds zero -/
theorem missed_of_execute {e : Expr} (hid : Identified (block.machine shortColumnNames) e.nodes)
    (h : execute block shortColumnNames e = .ok 0) :
    ∃ a, eval (block.machine shortColumnNames) e = .ok a ∧ Missed true a := by
  unfold execute at h
  rw [insertedValue_eq_eval hid] at h
  obtain ⟨a, ha, h⟩ := bind_eq_ok.1 h
  refine ⟨a, ha, ?_⟩
  cases a with
  | constInt t c =>
    obtain rfl : c = 0 := Except.ok.inj h
    rfl
  | constText s => cases h
  | colInt raw t lo hi mark =>
    cases raw with
    | true => cases h
    | false => exact whereResultCol_zero.1 (Except.ok.inj h)
  | colText raw lo hi mark => cases h

theorem oneComparison_yields {e : Expr} (hone : oneComparison e = true) :
    Yields (OfNode false) (eval (block.machine shortColumnNames) e) := by
  cases e with
  | leaf l => cases hone
  | unary op e => cases op <;> first | exact yields_bind fun v => unary_yields .logicalNot v | cases hone
  | binary op l r =>
    cases op <;> first | exact yields_bind fun v => yields_bind fun w => binary_yields (.compare _) v w | cases hone

theorem execute_of_missed {e : Expr} (hid : Identified (block.machine shortColumnNames) e.nodes)
    (hone : oneComparison e = true) {a : Arg} (ha : eval (block.machine shortColumnNames) e = .ok a)
    (hmissed : Missed true a) : execute block shortColumnNames e = .ok 0 := by
  unfold execute
  rw [insertedValue_eq_eval hid]
  refine bind_eq_ok.2 ⟨a, ha, ?_⟩
  have hnode : OfNode false a := oneComparison_yields hone a ha
  cases a with
  | constInt t c => exact hnode.elim
  | constText s => exact hmissed.elim
  | colInt raw t lo hi mark =>
    obtain ⟨rfl, -⟩ := hnode
    exact congrArg Except.ok (whereResultCol_zero.2 hmissed)
  | colText raw lo hi mark => exact hmissed.elim

/-- a block that is skipped has no row that passes -/
def PruningSound (block : Block) (shortColumnNames : String → Option String) (rows : List Row) (e : Expr) : Prop :=
  execute block shortColumnNames e = .ok 0 → ∀ row ∈ rows, ¬ Satisfies row e

theorem reached_of_satisfies {row : Row} (hrow : row ∈ rows) {e : Expr} (h : Satisfies row e) :
    Reached rows true e := by
  obtain ⟨t, v, hv, hne⟩ := h
  exact ⟨v, ⟨row, hrow, t, hv⟩, decide_eq_true hne⟩

theorem pruned_sound {e : Expr} (hbounded : Bounded block rows e)
    (hid : Identified (block.machine shortColumnNames) e.nodes) (hfits : Fits block shortColumnNames rows true e) :
    PruningSound block shortColumnNames rows e := by
  intro h row hrow hsat
  obtain ⟨a, ha, hmissed⟩ := missed_of_execute hid h
  exact fits_sound hbounded ha hfits hmissed (reached_of_satisfies hrow hsat)

theorem pruned_exact {e : Expr} (hbounded : Bounded block rows e)
    (hid : Identified (block.machine shortColumnNames) e.nodes) (hone : oneComparison e = true)
    (hsound : PruningSound block shortColumnNames rows e) : Fits block shortColumnNames rows true e := by
  refine fits_exact hone hbounded fun a ha hmissed hreached => ?_
  obtain ⟨v, ⟨row, hrow, t, hv⟩, hne⟩ := hreached
  exact hsound (execute_of_missed hid hone ha hmissed) row hrow ⟨t, v, hv, of_decide_eq_true hne⟩

/-! ## Languages of clauses -/

structure Language where
  operand : Operand → Bool
  unary : UnaryOp → Bool
  binary : BinaryOp → Bool

def Language.allows (lang : Language) : Expr → Bool
  | .leaf l => lang.operand l
  | .unary op e => lang.unary op && lang.allows e
  | .binary op l r => lang.binary op && lang.allows l && lang.allows r

/-- the clauses of a language -/
structure Clause (lang : Language) where
  expr : Expr
  allowed : lang.allows expr = true

def Operand.isNumber : Operand → Bool
  | .intColumn _ _ _ | .intLiteral _ _ _ => true
  | _ => false

/-- comparisons, AND, OR, NOT and `+`, `-`, `*` over numbers -/
def arithmeticLanguage : Language where
  operand := Operand.isNumber
  unary op := op = .logicalNot
  binary
    | .compare _ | .logic _ | .arith .add | .arith .sub | .arith .mul => true
    | _ => false

/-- all operators on integers -/
def integerLanguage : Language where
  operand := Operand.isNumber
  unary
    | .logicalNot | .minus | .abs | .sign | .date _ | .cast _ => true
    | _ => false
  binary
    | .compare _ | .logic _ | .arith _ => true
    | _ => false

/-- operators on texts; LEFT and RIGHT take a number, and LEN is one -/
def textLanguage : Language where
  operand _ := true
  unary
    | .logicalNot | .text _ | .len => true
    | _ => false
  binary
    | .compare _ | .logic _ | .left | .right | .concat => true
    | _ => false

/-- a block of one column of each type -/
def numberBlock (lo hi : ℤ) : Block := ⟨fun _ _ => lo, fun _ _ => hi, fun _ _ => [], fun _ _ => []⟩

def numberRow (v : ℤ) : Row := ⟨fun _ _ => v, fun _ _ => []⟩

def columnA : Expr := .leaf (.intColumn "t" "a" .int32)

def number (text : String) (v : ℤ) : Expr := .leaf (.intLiteral text .int32 v)

/-- `a + 1 > 30 AND NOT (a < 5)` -/
def sumClause : Clause arithmeticLanguage :=
  ⟨.binary (.logic .and)
    (.binary (.compare .greater) (.binary (.arith .add) columnA (number "1" 1)) (number "30" 30))
    (.unary .logicalNot (.binary (.compare .less) columnA (number "5" 5))), by decide⟩

/-- `a / 2 = 3` -/
def halfClause : Clause integerLanguage :=
  ⟨.binary (.compare .equals) (.binary (.arith .div) columnA (number "2" 2)) (number "3" 3), by decide⟩

def textBlock (lo hi : Str) : Block := ⟨fun _ _ => 0, fun _ _ => 0, fun _ _ => lo, fun _ _ => hi⟩

def textRow (s : Str) : Row := ⟨fun _ _ => 0, fun _ _ => s⟩

def columnS : Expr := .leaf (.textColumn "t" "s")

/-- `LEFT(s, 1) = "x"` -/
def leftClause : Clause textLanguage :=
  ⟨.binary (.compare .equals) (.binary .left columnS (number "1" 1)) (.leaf (.textLiteral "\"x\"" [120])), by decide⟩

end QikkDB.WhereBounds

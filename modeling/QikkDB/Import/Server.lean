/-
CSV import of the server (CSVParser.hpp, `CsvParser`, `next_field`, `handle_crlf`, `iterator::next`;
CSVDataImporter.cpp, `ParseAndImport`).

The mapped file is cut at multiples of its length divided by the number of threads. Each of the two borders of a thread
is moved back, byte by byte, to behind a line terminator, and a parser reads the rows between them.

- the parser's buffer from `m_cursor` to `m_inputbuf_size` is a list; `m_cursor` itself is kept for the place of a row;
- the scans have an unsigned cursor: a scan that finds no terminator reads in front of the file (`outOfRange`);
- the test for a byte order mark compares signed chars with 0xEF and never holds (`make_eq`);
- casts of fields and the insertion into the table are not modelled: a row is what the parser hands over.

Results:
- `rows_eq_read`: the parser is a reader that finds a row before a cut also without the text behind the cut.
- `import_aligned`: the threads hand over the rows of the sequential import, each at its place, iff no border lies in the
  first line, there are no more threads than bytes, and no row lies across a border.
-/
import Mathlib.Tactic
import Mathlib.Data.List.DropRight
import QikkDB.Lib.Pieces
import QikkDB.Lib.Traverse

namespace QikkDB.CSVDataImporter

open Pieces

/-! ## CsvParser -/

inductive State where
  | startOfField
  | inField
  | inQuotedField
  | inEscapedQuote
  | endOfRow
  | empty
deriving DecidableEq, Repr

inductive Field where
  | data (text : List UInt8)
  | rowEnd
  | csvEnd
deriving DecidableEq, Repr

/-- m_delimiter and m_quote -/
structure Dialect where
  delimiter : UInt8
  quote : UInt8

/-- operator== of a char and Term::CRLF -/
def isTerminator (c : UInt8) : Bool := c == 13 || c == 10

/-- handle_crlf: the LF behind a CR is skipped if it is in the buffer -/
def handleCrlf (c : UInt8) : List UInt8 → List UInt8
  | [] => []
  | d :: cs => if c = 13 ∧ d = 10 then cs else d :: cs

/-- the loop of next_field over the rest of the buffer, with m_fieldbuf -/
def fieldLoop (D : Dialect) : State → List UInt8 → List UInt8 → Field × State × List UInt8
  | _, [], buf => (if buf.isEmpty then .csvEnd else .data buf, .empty, [])
  | .inField, c :: cs, buf =>
    if isTerminator c then (.data buf, .endOfRow, handleCrlf c cs)
    else if c = D.delimiter then (.data buf, .startOfField, cs)
    else fieldLoop D .inField cs (buf ++ [c])
  | .startOfField, c :: cs, buf =>
    if isTerminator c then (.rowEnd, .startOfField, handleCrlf c cs)
    else if c = D.quote then fieldLoop D .inQuotedField cs buf
    else if c = D.delimiter then (.data buf, .startOfField, cs)
    else fieldLoop D .inField cs (buf ++ [c])
  | .inQuotedField, c :: cs, buf =>
    if c = D.quote then fieldLoop D .inEscapedQuote cs buf
    else fieldLoop D .inQuotedField cs (buf ++ [c])
  | .inEscapedQuote, c :: cs, buf =>
    if isTerminator c then (.data buf, .endOfRow, handleCrlf c cs)
    else if c = D.quote then fieldLoop D .inQuotedField cs (buf ++ [c])
    else if c = D.delimiter then (.data buf, .startOfField, cs)
    else fieldLoop D .inField cs (buf ++ [c])
  | .endOfRow, c :: cs, _ => (.rowEnd, .startOfField, c :: cs)
  | .empty, c :: cs, _ => (.csvEnd, .empty, c :: cs)

def nextField (D : Dialect) (state : State) (rest : List UInt8) : Field × State × List UInt8 :=
  if state = .empty then (.csvEnd, .empty, rest) else fieldLoop D state rest []

abbrev Row := List (List UInt8)

/-- what iterator::next leaves: m_row, whether m_current_row is -1, and the parser -/
structure Next where
  row : Row
  ended : Bool
  state : State
  rest : List UInt8
deriving DecidableEq

/-- iterator::next with the fields so far; `n` bounds the calls of next_field -/
def nextLoop (D : Dialect) : ℕ → State → List UInt8 → Row → Next
  | 0, state, rest, fields => ⟨fields, true, state, rest⟩
  | n + 1, state, rest, fields =>
    match nextField D state rest with
    | (.csvEnd, state', rest') => ⟨fields, true, state', rest'⟩
    | (.rowEnd, state', rest') => ⟨fields, false, state', rest'⟩
    | (.data text, state', rest') => nextLoop D n state' rest' (fields ++ [text])

def iteratorNext (D : Dialect) (state : State) (rest : List UInt8) : Next := nextLoop D (rest.length + 1) state rest []

/-- the loop over the rows of a parser; an iterator is at the end if m_current_row is -1 and m_row is empty -/
def rowsLoop (D : Dialect) : ℕ → ℕ → State → List UInt8 → List (Placed Row)
  | 0, _, _, _ => []
  | n + 1, cursor, state, rest =>
    let next := iteratorNext D state rest
    if next.ended = true ∧ next.row = [] then []
    else
      let cursor' := cursor + (rest.length - next.rest.length)
      ⟨cursor, cursor', next.row⟩ :: rowsLoop D n cursor' next.state next.rest

inductive Failure where
  /-- a character outside of the file is read -/
  | outOfRange
  /-- std::invalid_argument -/
  | invalidArgument
deriving DecidableEq, Repr

/-- the position of the last terminator up to `p`; the cursor of the source wraps at 0 -/
def scanBack (input : List UInt8) : ℕ → Except Failure ℕ
  | 0 =>
    match input[0]? with
    | none => .error .outOfRange
    | some c => if isTerminator c then .ok 0 else .error .outOfRange
  | p + 1 =>
    match input[p + 1]? with
    | none => .error .outOfRange
    | some c => if isTerminator c then .ok (p + 1) else scanBack input p

/-- m_cursor and m_inputbuf_size -/
structure CsvParser where
  cursor : ℕ
  inputbufSize : ℕ
deriving DecidableEq

/-- the value of a char, which is signed -/
def charValue (c : UInt8) : ℤ := c.toInt8.toInt

def CsvParser.make (input : List UInt8) (cursor inputbufSize : ℕ) : Except Failure CsvParser := do
  if inputbufSize > 3 ∧ (input.take 3).map charValue = [0xEF, 0xBB, 0xBF] then
    throw .invalidArgument
  let cursor ← if cursor > 0 then (· + 1) <$> scanBack input cursor else pure cursor
  let inputbufSize ← if inputbufSize < input.length then (· + 1) <$> scanBack input inputbufSize else pure inputbufSize
  pure ⟨cursor, inputbufSize⟩

def CsvParser.rest (input : List UInt8) (parser : CsvParser) : List UInt8 :=
  (input.drop parser.cursor).take (parser.inputbufSize - parser.cursor)

/-- for (auto& row : parser) -/
def CsvParser.rows (D : Dialect) (input : List UInt8) (parser : CsvParser) : List (Placed Row) :=
  rowsLoop D ((parser.rest input).length + 1) parser.cursor .startOfField (parser.rest input)

/-! ## CSVDataImporter -/

/-- the rows that ParseAndImport of a thread casts; the first row of the first thread is the header -/
def parseAndImport (D : Dialect) (header : Bool) (numThreads : ℕ) (input : List UInt8) (threadId : ℕ) :
    Except Failure (List (Placed Row)) := do
  let start := input.length / numThreads * threadId
  let stop := if threadId ≥ numThreads - 1 then input.length else start + input.length / numThreads
  let parser ← CsvParser.make input start stop
  pure ((parser.rows D input).drop (if header = true ∧ threadId = 0 then 1 else 0))

/-- the rows of all threads of ImportTables -/
def importRows (D : Dialect) (header : Bool) (numThreads : ℕ) (input : List UInt8) :
    Except Failure (List (Placed Row)) := do
  let rows ← (List.range numThreads).mapM (parseAndImport D header numThreads input)
  pure rows.flatten

/-! ## One field -/

variable {D : Dialect}

theorem handleCrlf_suffix (c : UInt8) (cs : List UInt8) : ∃ p, cs = p ++ handleCrlf c cs := by
  cases cs with
  | nil => exact ⟨[], rfl⟩
  | cons d cs =>
    simp only [handleCrlf]
    split_ifs
    · exact ⟨[d], rfl⟩
    · exact ⟨[], rfl⟩

theorem handleCrlf_append (c : UInt8) {cs : List UInt8} (h : cs ≠ []) (y : List UInt8) :
    handleCrlf c (cs ++ y) = handleCrlf c cs ++ y := by
  obtain ⟨d, ds, rfl⟩ := List.exists_cons_of_ne_nil h
  simp only [List.cons_append, handleCrlf]
  split_ifs <;> rfl

/-- a field takes at least one character, unless there is none or the row is at its end -/
theorem fieldLoop_suffix (state : State) (x buf : List UInt8) :
    ∃ p, x = p ++ (fieldLoop D state x buf).2.2
      ∧ (state ≠ .endOfRow → state ≠ .empty → x ≠ [] → p ≠ []) := by
  have hstep : ∀ {c : UInt8} {cs r : List UInt8}, (∃ p, cs = p ++ r) → ∃ p, c :: cs = p ++ r ∧ p ≠ [] := by
    rintro c cs r ⟨p, rfl⟩
    exact ⟨c :: p, rfl, by simp⟩
  fun_induction fieldLoop D state x buf with
  | case1 => exact ⟨[], rfl, by simp⟩
  | case2 | case3 | case5 | case7 | case11 | case13 =>
    first
      | obtain ⟨p, hp, hne⟩ := hstep (handleCrlf_suffix _ _)
        exact ⟨p, hp, fun _ _ _ => hne⟩
      | exact ⟨[_], rfl, by simp⟩
  | case15 => exact ⟨[], rfl, by simp⟩
  | case16 => exact ⟨[], rfl, by simp⟩
  | _ =>
    rename_i ih
    obtain ⟨p, hp, -⟩ := ih
    obtain ⟨p', hp', hne⟩ := hstep ⟨p, hp⟩
    exact ⟨p', hp', fun _ _ _ => hne⟩

/-- what a field says about the parser behind it -/
def Consistent : Field × State × List UInt8 → Prop
  | (.data _, state, rest) => state = .startOfField ∨ state = .endOfRow ∨ state = .empty ∧ rest = []
  | (.rowEnd, state, _) => state = .startOfField
  | (.csvEnd, state, rest) => state = .empty ∧ rest = []

theorem fieldLoop_consistent (state : State) (x buf : List UInt8) (h : state ≠ .empty) :
    Consistent (fieldLoop D state x buf) := by
  fun_induction fieldLoop D state x buf with
  | case1 state buf =>
    split_ifs
    · exact ⟨rfl, rfl⟩
    · exact .inr (.inr ⟨rfl, rfl⟩)
  | case2 | case11 => exact .inr (.inl rfl)
  | case3 | case7 | case13 => exact .inl rfl
  | case5 | case15 => rfl
  | case16 => exact absurd rfl h
  | _ => rename_i ih; exact ih (by simp)

theorem handleCrlf_cut {c : UInt8} {cs y : List UInt8} (h : y.length ≤ (handleCrlf c (cs ++ y)).length) :
    handleCrlf c (cs ++ y) = handleCrlf c cs ++ y := by
  cases cs with
  | nil =>
    obtain ⟨p, hp⟩ := handleCrlf_suffix c y
    have hlen := congrArg List.length hp
    rw [List.length_append] at hlen
    rw [List.nil_append] at h
    have hnil : p = [] := List.length_eq_zero_iff.1 (by omega)
    rw [hnil, List.nil_append] at hp
    rw [List.nil_append, ← hp]
    rfl
  | cons d ds => exact handleCrlf_append c (by simp) y

/-- a field that ends before a cut is found without the text behind the cut -/
theorem fieldLoop_cut {state state' : State} {x y buf z : List UInt8} {f : Field} (hrow : state ≠ .endOfRow)
    (hempty : state ≠ .empty) (h : fieldLoop D state (x ++ y) buf = (f, state', z)) (hz : y.length ≤ z.length) :
    ∃ w, fieldLoop D state x buf = (f, state', w) ∧ z = w ++ y := by
  induction x generalizing state buf with
  | nil =>
    cases y with
    | nil => exact ⟨z, h, by simp⟩
    | cons d ds =>
      obtain ⟨p, hp, hne⟩ := fieldLoop_suffix (D := D) state (d :: ds) buf
      have hpos := List.length_pos_iff.2 (hne hrow hempty (by simp))
      rw [List.nil_append] at h
      have hlen := congrArg List.length hp
      rw [h, List.length_append] at hlen
      simp only at hlen
      omega
  | cons c cs ih =>
    have hcrlf : ∀ {g : Field} {t : State}, (g, t, handleCrlf c (cs ++ y)) = (f, state', z) →
        ∃ w, (g, t, handleCrlf c cs) = (f, state', w) ∧ z = w ++ y := by
      intro g t hgt
      obtain ⟨rfl, rfl, rfl⟩ : g = f ∧ t = state' ∧ handleCrlf c (cs ++ y) = z := by simpa using hgt
      exact ⟨_, rfl, handleCrlf_cut hz⟩
    have hplain : ∀ {g : Field} {t : State}, (g, t, cs ++ y) = (f, state', z) →
        ∃ w, (g, t, cs) = (f, state', w) ∧ z = w ++ y := by
      intro g t hgt
      obtain ⟨rfl, rfl, rfl⟩ : g = f ∧ t = state' ∧ cs ++ y = z := by simpa using hgt
      exact ⟨_, rfl, rfl⟩
    cases state with
    | inField | startOfField | inQuotedField | inEscapedQuote =>
      simp only [List.cons_append, fieldLoop] at h ⊢
      split_ifs at h ⊢
      all_goals first
        | exact hcrlf h
        | exact hplain h
        | exact ih (by simp) (by simp) h
    | endOfRow => exact absurd rfl hrow
    | empty => exact absurd rfl hempty

/-- a field that ends before the end of its text is found with any text behind it -/
theorem fieldLoop_extend {state state' : State} {x buf w : List UInt8} {f : Field}
    (h : fieldLoop D state x buf = (f, state', w)) (hw : w ≠ []) (y : List UInt8) :
    fieldLoop D state (x ++ y) buf = (f, state', w ++ y) := by
  induction x generalizing state buf with
  | nil =>
    simp only [fieldLoop, Prod.mk.injEq] at h
    exact absurd h.2.2.symm hw
  | cons c cs ih =>
    have hcrlf : ∀ {g : Field} {t : State}, (g, t, handleCrlf c cs) = (f, state', w) →
        (g, t, handleCrlf c (cs ++ y)) = (f, state', w ++ y) := by
      intro g t hgt
      obtain ⟨rfl, rfl, rfl⟩ : g = f ∧ t = state' ∧ handleCrlf c cs = w := by simpa using hgt
      rw [handleCrlf_append c (by rintro rfl; exact hw rfl)]
    cases state
    all_goals
      simp only [List.cons_append, fieldLoop] at h ⊢
      try split_ifs at h ⊢
      all_goals first
        | exact hcrlf h
        | exact ih h
        | (obtain ⟨rfl, rfl, rfl⟩ := (by simpa using h : _ = f ∧ _ = state' ∧ _ = w); rfl)

/-! ## One row -/

theorem nextField_of_ne {state : State} (h : state ≠ .empty) (x : List UInt8) :
    nextField D state x = fieldLoop D state x [] := by
  rw [nextField, if_neg h]

theorem nextField_suffix (state : State) (x : List UInt8) : ∃ p, x = p ++ (nextField D state x).2.2 := by
  by_cases h : state = .empty
  · exact ⟨[], by simp [nextField, h]⟩
  · rw [nextField_of_ne h]
    obtain ⟨p, hp, -⟩ := fieldLoop_suffix (D := D) state x []
    exact ⟨p, hp⟩

/-- only a parser inside of a row finds a field, and then it moves on -/
theorem nextField_data {state state' : State} {x r text : List UInt8} (h : nextField D state x = (.data text, state', r)) :
    state ≠ .empty ∧ state ≠ .endOfRow ∧ r.length < x.length := by
  have hempty : state ≠ .empty := by
    rintro rfl
    simp [nextField] at h
  rw [nextField_of_ne hempty] at h
  have hx : x ≠ [] := by
    rintro rfl
    simp [fieldLoop] at h
  have hrow : state ≠ .endOfRow := by
    rintro rfl
    obtain ⟨c, cs, rfl⟩ := List.exists_cons_of_ne_nil hx
    simp [fieldLoop] at h
  obtain ⟨p, hp, hne⟩ := fieldLoop_suffix (D := D) state x []
  have hpos := List.length_pos_iff.2 (hne hrow hempty hx)
  have hlen := congrArg List.length hp
  rw [h, List.length_append] at hlen
  exact ⟨hempty, hrow, by simp only at hlen; omega⟩

theorem nextLoop_suffix (n : ℕ) (state : State) (x : List UInt8) (fields : Row) :
    ∃ p, x = p ++ (nextLoop D n state x fields).rest := by
  induction n generalizing state x fields with
  | zero => exact ⟨[], rfl⟩
  | succ n ih =>
    obtain ⟨p, hp⟩ := nextField_suffix (D := D) state x
    unfold nextLoop
    split
    · rename_i h
      exact ⟨p, by simpa [h] using hp⟩
    · rename_i h
      exact ⟨p, by simpa [h] using hp⟩
    · rename_i text state' rest' h
      obtain ⟨p', hp'⟩ := ih state' rest' (fields ++ [text])
      refine ⟨p ++ p', ?_⟩
      rw [h] at hp
      rw [List.append_assoc, ← hp']
      exact hp

theorem nextLoop_row (n : ℕ) (state : State) (x : List UInt8) (fields : Row) :
    ∃ more, (nextLoop D n state x fields).row = fields ++ more := by
  induction n generalizing state x fields with
  | zero => exact ⟨[], by simp [nextLoop]⟩
  | succ n ih =>
    unfold nextLoop
    split
    · exact ⟨[], by simp⟩
    · exact ⟨[], by simp⟩
    · rename_i text state' rest' _
      obtain ⟨more, h⟩ := ih state' rest' (fields ++ [text])
      exact ⟨text :: more, by rw [h, List.append_assoc]; rfl⟩

/-- any number of calls above the length of the text gives the row -/
theorem nextLoop_bound {n m : ℕ} {x : List UInt8} (hn : x.length < n) (hm : x.length < m) (state : State)
    (fields : Row) : nextLoop D n state x fields = nextLoop D m state x fields := by
  induction n generalizing m state x fields with
  | zero => omega
  | succ n ih =>
    obtain ⟨m, rfl⟩ : ∃ k, m = k + 1 := ⟨m - 1, by omega⟩
    unfold nextLoop
    split
    · rfl
    · rfl
    · rename_i text state' rest' h
      have := (nextField_data h).2.2
      exact ih (by omega) (by omega) state' (fields ++ [text])

/-- the parser behind a row -/
theorem nextLoop_end {n : ℕ} {x : List UInt8} (hn : x.length < n) {state : State} (hstate : state ≠ .empty ∨ x = [])
    (fields : Row) :
    (nextLoop D n state x fields).ended = true ∧ (nextLoop D n state x fields).state = .empty
        ∧ (nextLoop D n state x fields).rest = []
      ∨ (nextLoop D n state x fields).ended = false ∧ (nextLoop D n state x fields).state = .startOfField := by
  induction n generalizing state x fields with
  | zero => omega
  | succ n ih =>
    by_cases hempty : state = .empty
    · have hx := hstate.resolve_left (by simp [hempty])
      refine .inl ?_
      simp [nextLoop, nextField, hempty, hx]
    · have hcons := fieldLoop_consistent (D := D) state x [] hempty
      rw [← nextField_of_ne hempty] at hcons
      unfold nextLoop
      split
      · rename_i h
        rw [h] at hcons
        exact .inl ⟨rfl, hcons⟩
      · rename_i h
        rw [h] at hcons
        exact .inr ⟨rfl, hcons⟩
      · rename_i text state' rest' h
        have hlt := (nextField_data h).2.2
        rw [h] at hcons
        refine ih (by omega) ?_ (fields ++ [text])
        rcases hcons with rfl | rfl | ⟨-, hr⟩
        · exact .inl (by simp)
        · exact .inl (by simp)
        · exact .inr hr

/-- A row that ends before a cut is found without the text behind it. The two loops may differ in how they end: without
that text the buffer can be at its end. -/
theorem nextLoop_cut {n m : ℕ} {x y : List UInt8} (hy : y ≠ []) (hn : (x ++ y).length < n) (hm : x.length < m)
    {state : State} (hstate : state = .startOfField ∨ state = .endOfRow) (fields : Row)
    (hz : y.length ≤ (nextLoop D n state (x ++ y) fields).rest.length) :
    (nextLoop D m state x fields).row = (nextLoop D n state (x ++ y) fields).row
      ∧ (nextLoop D n state (x ++ y) fields).rest = (nextLoop D m state x fields).rest ++ y
      ∧ ((nextLoop D m state x fields).ended = true →
        state = .endOfRow ∨ fields.length < (nextLoop D n state (x ++ y) fields).row.length) := by
  induction n generalizing m state x fields with
  | zero => omega
  | succ n ih =>
    obtain ⟨m, rfl⟩ : ∃ k, m = k + 1 := ⟨m - 1, by omega⟩
    rcases hstate with rfl | rfl
    · -- inside of a row the field ends before the cut
      obtain ⟨f, state', z, hf⟩ : ∃ f state' z, fieldLoop D .startOfField (x ++ y) [] = (f, state', z) := ⟨_, _, _, rfl⟩
      have hf' : nextField D .startOfField (x ++ y) = (f, state', z) := by rw [nextField_of_ne (by simp), hf]
      have hcons := fieldLoop_consistent (D := D) .startOfField (x ++ y) [] (by simp)
      rw [hf] at hcons
      have hlen : y.length ≤ z.length := by
        unfold nextLoop at hz
        rw [hf'] at hz
        cases f with
        | csvEnd => exact hz
        | rowEnd => exact hz
        | data text =>
          obtain ⟨p, hp⟩ := nextLoop_suffix (D := D) n state' z (fields ++ [text])
          have := congrArg List.length hp
          rw [List.length_append] at this
          simp only at hz
          omega
      have hzne : z ≠ [] := by
        rintro rfl
        exact hy (List.length_eq_zero_iff.1 (Nat.le_zero.1 hlen))
      obtain ⟨w, hw, rfl⟩ := fieldLoop_cut (by simp) (by simp) hf hlen
      have hw' : nextField D .startOfField x = (f, state', w) := by rw [nextField_of_ne (by simp), hw]
      unfold nextLoop at hz ⊢
      rw [hf'] at hz ⊢
      rw [hw']
      cases f with
      | csvEnd => exact absurd hcons.2 hzne
      | rowEnd => simp
      | data text =>
        have hlt := (nextField_data hf').2.2
        have hlt' := (nextField_data hw').2.2
        have hstate' : state' = .startOfField ∨ state' = .endOfRow := by
          rcases hcons with h | h | ⟨-, h⟩
          · exact .inl h
          · exact .inr h
          · exact absurd h hzne
        obtain ⟨hrow, hrest, -⟩ := ih (by omega) (by omega : w.length < m) hstate' (fields ++ [text]) hz
        refine ⟨hrow, hrest, fun _ => .inr ?_⟩
        obtain ⟨more, hmore⟩ := nextLoop_row (D := D) n state' (w ++ y) (fields ++ [text])
        simp only [hmore, List.length_append, List.length_cons, List.length_nil]
        omega
    · -- the row was at its end already
      obtain ⟨d, ds, rfl⟩ := List.exists_cons_of_ne_nil hy
      cases x with
      | nil => simp [nextLoop, nextField, fieldLoop]
      | cons c cs => simp [nextLoop, nextField, fieldLoop]

/-- a row that ends before the end of its text is found with any text behind it -/
theorem nextLoop_extend {n m : ℕ} {x : List UInt8} (y : List UInt8) (hn : x.length < n) (hm : (x ++ y).length < m)
    {state : State} (hstate : state ≠ .empty) (fields : Row) (hw : (nextLoop D n state x fields).rest ≠ []) :
    (nextLoop D m state (x ++ y) fields).row = (nextLoop D n state x fields).row
      ∧ (nextLoop D m state (x ++ y) fields).ended = (nextLoop D n state x fields).ended
      ∧ (nextLoop D m state (x ++ y) fields).rest = (nextLoop D n state x fields).rest ++ y := by
  induction n generalizing m state x fields with
  | zero => omega
  | succ n ih =>
    obtain ⟨m, rfl⟩ : ∃ k, m = k + 1 := ⟨m - 1, by omega⟩
    obtain ⟨f, state', w, hf⟩ : ∃ f state' w, nextField D state x = (f, state', w) := ⟨_, _, _, rfl⟩
    have hcons := fieldLoop_consistent (D := D) state x [] hstate
    rw [← nextField_of_ne hstate, hf] at hcons
    have hne : w ≠ [] := by
      rintro rfl
      unfold nextLoop at hw
      rw [hf] at hw
      cases f with
      | csvEnd => exact hw rfl
      | rowEnd => exact hw rfl
      | data text =>
        obtain ⟨p, hp⟩ := nextLoop_suffix (D := D) n state' [] (fields ++ [text])
        exact hw (List.append_eq_nil_iff.1 hp.symm).2
    have hf' : nextField D state (x ++ y) = (f, state', w ++ y) := by
      rw [nextField_of_ne hstate] at hf ⊢
      exact fieldLoop_extend hf hne y
    unfold nextLoop at hw ⊢
    rw [hf] at hw ⊢
    rw [hf']
    cases f with
    | csvEnd => exact absurd hcons.2 hne
    | rowEnd => simp
    | data text =>
      have hlt := (nextField_data hf).2.2
      have hlt' := (nextField_data hf').2.2
      refine ih (by omega) (by omega) ?_ (fields ++ [text]) hw
      rcases hcons with rfl | rfl | ⟨-, h⟩
      · simp
      · simp
      · exact absurd h hne

/-! ## The parser as a reader -/

/-- the next row from the beginning of a row on, `none` at the end of the iteration -/
def nextRow (D : Dialect) (x : List UInt8) : Option (Row × List UInt8) :=
  let next := iteratorNext D .startOfField x
  if next.ended = true ∧ next.row = [] then none else some (next.row, next.rest)

/-- a text without rows: nothing, or quotes around nothing -/
def Blank (D : Dialect) (x : List UInt8) : Prop :=
  x = [] ∨ isTerminator D.quote = false ∧ (x = [D.quote] ∨ x = [D.quote, D.quote])

instance (x : List UInt8) : Decidable (Blank D x) := inferInstanceAs (Decidable (_ ∨ _))

theorem fieldLoop_ne_csvEnd {state : State} {x buf : List UInt8} (hbuf : buf ≠ [])
    (hstate : state = .inField ∨ state = .inQuotedField ∨ state = .inEscapedQuote) :
    (fieldLoop D state x buf).1 ≠ .csvEnd := by
  induction x generalizing state buf with
  | nil => simp [fieldLoop, hbuf]
  | cons c cs ih =>
    rcases hstate with rfl | rfl | rfl
    all_goals
      simp only [fieldLoop]
      split_ifs
      all_goals first
        | exact ih (by simp [hbuf]) (by simp)
        | exact Field.noConfusion

theorem nextField_csvEnd {x : List UInt8} : (nextField D .startOfField x).1 = .csvEnd ↔ Blank D x := by
  rw [nextField_of_ne (by simp)]
  constructor
  · intro h
    match x with
    | [] => exact .inl rfl
    | c :: cs =>
      simp only [fieldLoop] at h
      split_ifs at h with hterm hquote
      · have hq : isTerminator D.quote = false := by rw [← hquote]; simpa using hterm
        subst hquote
        refine .inr ⟨hq, ?_⟩
        match cs with
        | [] => exact .inl rfl
        | d :: ds =>
          simp only [fieldLoop] at h
          split_ifs at h with hd
          · match ds with
            | [] => exact .inr (by rw [hd])
            | e :: es =>
              simp only [fieldLoop] at h
              split_ifs at h
              all_goals exact absurd h (fieldLoop_ne_csvEnd (by simp) (by simp))
          · exact absurd h (fieldLoop_ne_csvEnd (by simp) (by simp))
      · exact absurd h (fieldLoop_ne_csvEnd (by simp) (by simp))
  · rintro (rfl | ⟨hq, rfl | rfl⟩)
    · rfl
    · simp [fieldLoop, hq]
    · simp [fieldLoop, hq]

theorem nextRow_none {x : List UInt8} : nextRow D x = none ↔ Blank D x := by
  rw [← nextField_csvEnd]
  obtain ⟨f, state', r, hf⟩ : ∃ f state' r, nextField D .startOfField x = (f, state', r) := ⟨_, _, _, rfl⟩
  simp only [nextRow, iteratorNext, nextLoop, hf]
  cases f with
  | csvEnd => simp
  | rowEnd => simp
  | data text =>
    obtain ⟨more, hmore⟩ := nextLoop_row (D := D) x.length state' r [text]
    simp [hmore]

theorem nextRow_some {x z : List UInt8} {row : Row} (h : nextRow D x = some (row, z)) :
    (iteratorNext D .startOfField x).row = row ∧ (iteratorNext D .startOfField x).rest = z
      ∧ ¬ ((iteratorNext D .startOfField x).ended = true ∧ row = []) := by
  simp only [nextRow] at h
  split_ifs at h with hend
  obtain ⟨rfl, rfl⟩ : _ = row ∧ _ = z := by simpa using h
  exact ⟨rfl, rfl, hend⟩

theorem Blank.of_append {x y : List UInt8} (h : Blank D (x ++ y)) : Blank D x ∧ Blank D y := by
  rcases h with h | ⟨hq, h | h⟩
  · obtain ⟨rfl, rfl⟩ := List.append_eq_nil_iff.1 h
    exact ⟨.inl rfl, .inl rfl⟩
  · rcases List.append_eq_singleton_iff.1 h with ⟨rfl, rfl⟩ | ⟨rfl, rfl⟩
    · exact ⟨.inl rfl, .inr ⟨hq, .inl rfl⟩⟩
    · exact ⟨.inr ⟨hq, .inl rfl⟩, .inl rfl⟩
  · match x with
    | [] => exact ⟨.inl rfl, .inr ⟨hq, .inr h⟩⟩
    | [c] =>
      obtain ⟨rfl, rfl⟩ : c = D.quote ∧ y = [D.quote] := by simpa using h
      exact ⟨.inr ⟨hq, .inl rfl⟩, .inr ⟨hq, .inl rfl⟩⟩
    | c :: d :: cs =>
      obtain ⟨rfl, rfl, rfl, rfl⟩ : c = D.quote ∧ d = D.quote ∧ cs = [] ∧ y = [] := by simpa using h
      exact ⟨.inr ⟨hq, .inr rfl⟩, .inl rfl⟩

theorem Blank.not_terminator {x : List UInt8} (h : Blank D x) {c : UInt8} (hc : c ∈ x) : isTerminator c = false := by
  rcases h with rfl | ⟨hq, rfl | rfl⟩
  · cases hc
  · rw [List.mem_singleton.1 hc, hq]
  · have : c = D.quote := by simpa using hc
    rw [this, hq]

/-- a row takes at least one character -/
theorem iteratorNext_suffix {x : List UInt8} (hx : x ≠ []) :
    ∃ p, p ≠ [] ∧ x = p ++ (iteratorNext D .startOfField x).rest := by
  obtain ⟨p, hp, hne⟩ := fieldLoop_suffix (D := D) .startOfField x []
  rw [← nextField_of_ne (by simp)] at hp
  have hne := hne (by simp) (by simp) hx
  obtain ⟨q, hq⟩ : ∃ q, (nextField D .startOfField x).2.2 = q ++ (iteratorNext D .startOfField x).rest := by
    obtain ⟨f, state', r, hf⟩ : ∃ f state' r, nextField D .startOfField x = (f, state', r) := ⟨_, _, _, rfl⟩
    simp only [iteratorNext, nextLoop, hf]
    cases f with
    | csvEnd => exact ⟨[], rfl⟩
    | rowEnd => exact ⟨[], rfl⟩
    | data text => exact nextLoop_suffix x.length state' r _
  exact ⟨p ++ q, by simp [hne], by rw [List.append_assoc, ← hq]; exact hp⟩

def rowReader (D : Dialect) : Reader UInt8 Row where
  next := nextRow D
  consumes := by
    intro x row z h
    obtain ⟨-, rfl, -⟩ := nextRow_some h
    have hx : x ≠ [] := by
      rintro rfl
      rw [nextRow_none.2 (.inl rfl)] at h
      cases h
    exact iteratorNext_suffix hx
  cut := by
    intro x y row z h hle
    obtain ⟨hrow, hz, hend⟩ := nextRow_some h
    by_cases hy : y = []
    · subst hy
      rw [List.append_nil] at h
      exact ⟨z, h, by simp⟩
    · have hcut := nextLoop_cut (D := D) hy (Nat.lt_succ_self (x ++ y).length) (Nat.lt_succ_self x.length)
        (.inl rfl) [] (by rw [← hz] at hle; exact hle)
      obtain ⟨hrow', hrest, hended⟩ := hcut
      refine ⟨(iteratorNext D .startOfField x).rest, ?_, by rw [← hz]; exact hrest⟩
      have hsame : (iteratorNext D .startOfField x).row = row := hrow'.trans hrow
      rw [nextRow, hsame, if_neg]
      rintro ⟨hx, rfl⟩
      rcases hended hx with h' | h'
      · cases h'
      · rw [show (nextLoop D ((x ++ y).length + 1) .startOfField (x ++ y) []).row = [] from hrow] at h'
        simp at h'
  cut_none := by
    intro x y h
    obtain ⟨hx, hy⟩ := (nextRow_none.1 h).of_append
    exact ⟨nextRow_none.2 hx, nextRow_none.2 hy⟩

theorem rowsLoop_empty (n c : ℕ) : rowsLoop D n c .empty [] = [] := by
  cases n with
  | zero => rfl
  | succ n => simp [rowsLoop, iteratorNext, nextLoop, nextField]

/-- the rows of a parser are what the reader finds -/
theorem rowsLoop_eq_read {n : ℕ} {x : List UInt8} (hn : x.length < n) (c : ℕ) :
    rowsLoop D n c .startOfField x = read (rowReader D) c x := by
  induction n generalizing x c with
  | zero => omega
  | succ n ih =>
    have hend := nextLoop_end (D := D) (Nat.lt_succ_self x.length) (.inl (by simp : State.startOfField ≠ .empty)) []
    cases hr : nextRow D x with
    | none =>
      rw [read_of_none hr]
      simp only [nextRow] at hr
      split_ifs at hr with h
      simp only [rowsLoop]
      rw [if_pos h]
    | some v =>
      obtain ⟨row, z⟩ := v
      obtain ⟨hrow, hz, hstop⟩ := nextRow_some hr
      have hlt : z.length < x.length := length_lt (R := rowReader D) hr
      rw [read_of_some (R := rowReader D) hr]
      simp only [rowsLoop]
      rw [hrow, hz, if_neg hstop]
      refine congrArg _ ?_
      rcases hend with ⟨-, hstate, hrest⟩ | ⟨-, hstate⟩
      · have hnil : z = [] := hz.symm.trans hrest
        rw [show (iteratorNext D .startOfField x).state = .empty from hstate, hnil, rowsLoop_empty,
          read_of_none (R := rowReader D) next_nil]
      · rw [show (iteratorNext D .startOfField x).state = .startOfField from hstate]
        exact ih (by omega) _

theorem CsvParser.rows_eq_read (input : List UInt8) (parser : CsvParser) :
    parser.rows D input = read (rowReader D) parser.cursor (parser.rest input) :=
  rowsLoop_eq_read (Nat.lt_succ_self _) _

/-- a row that ends before the end of its text is found with any text behind it -/
theorem nextRow_extend {x z : List UInt8} {row : Row} (h : nextRow D x = some (row, z)) (hz : z ≠ []) (y : List UInt8) :
    nextRow D (x ++ y) = some (row, z ++ y) := by
  obtain ⟨hrow, hrest, hstop⟩ := nextRow_some h
  obtain ⟨hrow', hended, hrest'⟩ := nextLoop_extend (D := D) y (Nat.lt_succ_self x.length)
    (Nat.lt_succ_self (x ++ y).length) (by simp : State.startOfField ≠ .empty) [] (by rw [← hrest] at hz; exact hz)
  have hr : (iteratorNext D .startOfField (x ++ y)).row = row := hrow'.trans hrow
  have he : (iteratorNext D .startOfField (x ++ y)).ended = (iteratorNext D .startOfField x).ended := hended
  have hw : (iteratorNext D .startOfField (x ++ y)).rest = z ++ y := hrest'.trans (by rw [← hrest]; rfl)
  rw [nextRow, hr, he, hw, if_neg hstop]

/-! ## The borders -/

/-- behind the last terminator up to `p`, 0 if there is none -/
def lineStart (input : List UInt8) (p : ℕ) : ℕ := ((input.take (p + 1)).rdropWhile fun c => !isTerminator c).length

theorem lineStart_last {input : List UInt8} {q : ℕ} (hq : q < input.length) :
    lineStart input q
      = if isTerminator input[q] = true then q + 1
        else ((input.take q).rdropWhile fun c => !isTerminator c).length := by
  unfold lineStart
  rw [List.take_add_one, List.getElem?_eq_getElem hq]
  simp only [Option.toList_some, List.rdropWhile_concat]
  by_cases h : isTerminator input[q] = true
  · simp only [h, Bool.not_true, Bool.false_eq_true, if_false, if_true, List.length_append, List.length_take,
      List.length_cons, List.length_nil]
    omega
  · simp [h]

theorem scanBack_eq {input : List UInt8} {p : ℕ} (hp : p < input.length) :
    scanBack input p = if lineStart input p = 0 then .error .outOfRange else .ok (lineStart input p - 1) := by
  induction p with
  | zero =>
    rw [scanBack, List.getElem?_eq_getElem hp, lineStart_last hp]
    simp only
    by_cases h : isTerminator input[0] = true
    · simp [h]
    · simp [h]
  | succ p ih =>
    rw [scanBack, List.getElem?_eq_getElem hp, lineStart_last hp]
    simp only
    by_cases h : isTerminator input[p + 1] = true
    · simp [h]
    · rw [if_neg h, ih (by omega), if_neg h]
      rfl

theorem lineStart_le (input : List UInt8) (p : ℕ) : lineStart input p ≤ min (p + 1) input.length := by
  have h := (List.rdropWhile_prefix (fun c => !isTerminator c) (input.take (p + 1))).length_le
  rw [List.length_take] at h
  exact h

theorem lineStart_succ_le (input : List UInt8) (p : ℕ) : lineStart input p ≤ lineStart input (p + 1) := by
  rcases lt_or_ge (p + 1) input.length with hp | hp
  · rw [lineStart_last hp]
    split_ifs
    · have := lineStart_le input p
      omega
    · exact le_rfl
  · refine le_of_eq ?_
    unfold lineStart
    rw [List.take_of_length_le hp, List.take_of_length_le (by omega)]

/-- in front of a border that is not the beginning of the file there is a terminator -/
theorem lineStart_terminator {input : List UInt8} {p : ℕ} (h : 0 < lineStart input p) :
    ∃ c, input[lineStart input p - 1]? = some c ∧ isTerminator c = true := by
  have hne : (input.take (p + 1)).rdropWhile (fun c => !isTerminator c) ≠ [] := List.length_pos_iff.1 h
  refine ⟨_, ?_, by simpa using List.rdropWhile_last_not _ _ hne⟩
  obtain ⟨t, ht⟩ := (List.rdropWhile_prefix (fun c => !isTerminator c) (input.take (p + 1))).trans
    (List.take_prefix (p + 1) input)
  have hget : ∀ k < lineStart input p,
      input[k]? = ((input.take (p + 1)).rdropWhile fun c => !isTerminator c)[k]? := by
    intro k hk
    conv_lhs => rw [← ht]
    exact List.getElem?_append_left hk
  rw [hget _ (by omega), List.getLast_eq_getElem, ← List.getElem?_eq_getElem]
  rfl

/-- the parser between the borders that belong to two places; it fails where a border is in the first line -/
theorem make_eq {input : List UInt8} {cursor inputbufSize : ℕ} (hcursor : cursor < input.length) :
    CsvParser.make input cursor inputbufSize
      = if 0 < cursor ∧ lineStart input cursor = 0 ∨ inputbufSize < input.length ∧ lineStart input inputbufSize = 0 then
          .error .outOfRange
        else
          .ok ⟨if 0 < cursor then lineStart input cursor else 0,
            if inputbufSize < input.length then lineStart input inputbufSize else inputbufSize⟩ := by
  have hno : ¬ (inputbufSize > 3 ∧ (input.take 3).map charValue = [0xEF, 0xBB, 0xBF]) := by
    rintro ⟨-, h⟩
    have hmem : (0xEF : ℤ) ∈ (input.take 3).map charValue := by rw [h]; simp
    obtain ⟨c, -, hc⟩ := List.mem_map.1 hmem
    have := Int8.toInt_lt c.toInt8
    simp only [charValue] at hc
    omega
  have hscan : ∀ {p : ℕ}, p < input.length → ((· + 1) <$> scanBack input p : Except Failure ℕ)
      = if lineStart input p = 0 then .error .outOfRange else .ok (lineStart input p) := by
    intro p hp
    rw [scanBack_eq hp]
    split_ifs with h
    · rfl
    · exact congrArg Except.ok (Nat.sub_add_cancel (Nat.pos_of_ne_zero h))
  unfold CsvParser.make
  rw [if_neg hno]
  by_cases h0 : 0 < cursor
  · by_cases h1 : inputbufSize < input.length
    · simp only [gt_iff_lt, h0, h1, if_true, hscan hcursor, hscan h1]
      by_cases hc : lineStart input cursor = 0 <;> by_cases hs : lineStart input inputbufSize = 0 <;>
        simp [hc, hs, bind, Except.bind, pure, Except.pure]
    · simp only [gt_iff_lt, h0, h1, if_true, if_false, hscan hcursor]
      by_cases hc : lineStart input cursor = 0 <;> simp [hc, bind, Except.bind, pure, Except.pure]
  · have hzero : cursor = 0 := by omega
    by_cases h1 : inputbufSize < input.length
    · simp only [gt_iff_lt, h0, h1, if_true, if_false, hscan h1]
      by_cases hs : lineStart input inputbufSize = 0 <;> simp [hs, hzero, bind, Except.bind, pure, Except.pure]
    · simp [h1, hzero, bind, Except.bind, pure, Except.pure]

/-! ## The threads -/

/-- where the part of thread `i` begins -/
def border (numThreads : ℕ) (input : List UInt8) (i : ℕ) : ℕ :=
  if i = 0 then 0
  else if i < numThreads then lineStart input (input.length / numThreads * i)
  else input.length

/-- the first row of the first thread is not handed over if it is the header -/
def headerRows (header : Bool) (i : ℕ) : ℕ := if header = true ∧ i = 0 then 1 else 0

section Threads

variable {header : Bool} {numThreads : ℕ} {input : List UInt8}

theorem lineStart_mono (input : List UInt8) : Monotone (lineStart input) :=
  monotone_nat_of_le_succ (lineStart_succ_le input)

theorem border_le (i : ℕ) : border numThreads input i ≤ input.length := by
  unfold border
  split_ifs
  · exact Nat.zero_le _
  · exact (lineStart_le input _).trans (min_le_right _ _)
  · exact le_rfl

theorem border_mono : Monotone (border numThreads input) := by
  refine monotone_nat_of_le_succ fun i => ?_
  by_cases hnext : i + 1 < numThreads
  · by_cases hi : i = 0
    · simp [border, hi]
    · rw [border, if_neg hi, if_pos (by omega), border, if_neg (by omega), if_pos hnext]
      exact lineStart_mono input (Nat.mul_le_mul_left _ (Nat.le_succ i))
  · have hlast : border numThreads input (i + 1) = input.length := by
      rw [border, if_neg (by omega), if_neg hnext]
    rw [hlast]
    exact border_le i

/-- the place from which the scan for a border starts is in the file -/
theorem scan_lt (hsize : numThreads ≤ input.length) {i : ℕ} (hi : i < numThreads) :
    input.length / numThreads * i < input.length := by
  have hpos : 0 < input.length / numThreads := Nat.div_pos hsize (by omega)
  calc input.length / numThreads * i < input.length / numThreads * numThreads := Nat.mul_lt_mul_of_pos_left hi hpos
    _ ≤ input.length := Nat.div_mul_le_self _ _

theorem parseAndImport_ok (hsize : numThreads ≤ input.length)
    (hborder : ∀ i, 0 < i → i < numThreads → 0 < lineStart input (input.length / numThreads * i)) {i : ℕ}
    (hi : i < numThreads) :
    parseAndImport D header numThreads input i
      = .ok ((read (rowReader D) (border numThreads input i) (part input (border numThreads input) i)).drop
          (headerRows header i)) := by
  have hpos : 0 < input.length / numThreads := Nat.div_pos hsize (by omega)
  have hstart := scan_lt hsize hi
  obtain ⟨stop, hstop⟩ : ∃ stop, stop
      = if i ≥ numThreads - 1 then input.length else input.length / numThreads * i + input.length / numThreads := ⟨_, rfl⟩
  have hmake : CsvParser.make input (input.length / numThreads * i) stop
      = .ok ⟨border numThreads input i, border numThreads input (i + 1)⟩ := by
    have hleft : (if 0 < input.length / numThreads * i then lineStart input (input.length / numThreads * i) else 0)
        = border numThreads input i := by
      unfold border
      rcases Nat.eq_zero_or_pos i with rfl | hi0
      · simp
      · rw [if_pos (Nat.mul_pos hpos hi0), if_neg (by omega), if_pos hi]
    have hright : (if stop < input.length then lineStart input stop else stop) = border numThreads input (i + 1)
        ∧ (stop < input.length → 0 < lineStart input stop) := by
      unfold border
      by_cases hlast : i ≥ numThreads - 1
      · rw [if_pos hlast] at hstop
        rw [hstop, if_neg (lt_irrefl _), if_neg (by omega), if_neg (by omega)]
        exact ⟨rfl, fun h => absurd h (lt_irrefl _)⟩
      · rw [if_neg hlast, ← Nat.mul_succ] at hstop
        have hlt := scan_lt hsize (by omega : i + 1 < numThreads)
        rw [hstop, if_pos hlt, if_neg (by omega), if_pos (by omega)]
        exact ⟨rfl, fun _ => hborder (i + 1) (by omega) (by omega)⟩
    rw [make_eq hstart, hleft, hright.1, if_neg]
    rintro (⟨h, h0⟩ | ⟨h, h0⟩)
    · have hi0 : 0 < i := Nat.pos_of_mul_pos_left h
      have := hborder i hi0 hi
      omega
    · have := hright.2 h
      omega
  unfold parseAndImport
  simp only [← hstop, hmake, bind, Except.bind, pure, Except.pure, CsvParser.rows_eq_read, CsvParser.rest, headerRows,
    part]

/-- a border in the first line is scanned for to in front of the file -/
theorem parseAndImport_error (hsize : numThreads ≤ input.length) {i : ℕ} (hi0 : 0 < i) (hi : i < numThreads)
    (h : lineStart input (input.length / numThreads * i) = 0) :
    parseAndImport D header numThreads input i = .error .outOfRange := by
  have hpos : 0 < input.length / numThreads := Nat.div_pos hsize (by omega)
  unfold parseAndImport
  simp only [make_eq (scan_lt hsize hi)]
  rw [if_pos (.inl ⟨Nat.mul_pos hpos hi0, h⟩)]
  rfl

/-- the rows that the threads hand over -/
def threadRows (D : Dialect) (header : Bool) (numThreads : ℕ) (input : List UInt8) : List (Placed Row) :=
  (List.range numThreads).flatMap fun i =>
    (read (rowReader D) (border numThreads input i) (part input (border numThreads input) i)).drop
      (headerRows header i)

theorem importRows_ok (hsize : numThreads ≤ input.length)
    (hborder : ∀ i, 0 < i → i < numThreads → 0 < lineStart input (input.length / numThreads * i)) :
    importRows D header numThreads input = .ok (threadRows D header numThreads input) := by
  unfold importRows
  rw [Traverse.mapM_ok fun i hi => parseAndImport_ok hsize hborder (List.mem_range.1 hi)]
  rfl

/-- the sequential import -/
theorem importRows_one (hinput : input ≠ []) :
    importRows D header 1 input = .ok ((read (rowReader D) 0 input).drop (headerRows header 0)) := by
  have hlen := List.length_pos_iff.2 hinput
  rw [importRows_ok hlen fun i _ _ => by omega, threadRows]
  have hpart : part input (border 1 input) 0 = input := by simp [part, border]
  simp [hpart, border]

/-! ## Borders and rows -/

/-- no row of the file lies across a border; or there is no row but a header, and what is left of it behind each border
is no row -/
def Fits (D : Dialect) (header : Bool) (numThreads : ℕ) (input : List UInt8) : Prop :=
  (∀ i, 0 < i → i < numThreads → ∀ row ∈ read (rowReader D) 0 input, ¬ Across (border numThreads input i) row)
    ∨ header = true ∧ (read (rowReader D) 0 input).length ≤ 1
      ∧ ∀ i, 0 < i → i < numThreads → Blank D (input.drop (border numThreads input i))

variable (hborder : ∀ i, 0 < i → i < numThreads → 0 < border numThreads input i)

include hborder in
theorem border_terminator {i : ℕ} (hi0 : 0 < i) (hi : i < numThreads) :
    ∃ c, input[border numThreads input i - 1]? = some c ∧ isTerminator c = true := by
  have hpos := hborder i hi0 hi
  have heq : border numThreads input i = lineStart input (input.length / numThreads * i) := by
    rw [border, if_neg (by omega), if_pos hi]
  rw [heq] at hpos ⊢
  exact lineStart_terminator hpos

include hborder in
/-- a text with the last character in front of a border has a terminator -/
theorem not_blank_before {i : ℕ} (hi0 : 0 < i) (hi : i < numThreads) {x : List UInt8}
    (hx : ∀ c, input[border numThreads input i - 1]? = some c → c ∈ x) : ¬ Blank D x := by
  obtain ⟨c, hc, hterm⟩ := border_terminator hborder hi0 hi
  intro hblank
  have := hblank.not_terminator (hx c hc)
  rw [hterm] at this
  cases this

theorem mem_part {i k : ℕ} {c : UInt8} (hk : border numThreads input i ≤ k)
    (hk' : k < border numThreads input (i + 1)) (hc : input[k]? = some c) :
    c ∈ part input (border numThreads input) i := by
  refine List.mem_of_getElem? (i := k - border numThreads input i) ?_
  rw [part, List.getElem?_take_of_lt (by omega), List.getElem?_drop, Nat.add_sub_cancel' hk, hc]

theorem read_ne_nil {c : ℕ} {x : List UInt8} (h : ¬ Blank D x) : read (rowReader D) c x ≠ [] :=
  fun hnil => h (nextRow_none.1 (read_eq_nil.1 hnil))

/-- the first row of a text begins where the text does -/
theorem exists_start {c : ℕ} {x : List UInt8} (h : ¬ Blank D x) : ∃ p ∈ read (rowReader D) c x, p.start = c := by
  obtain ⟨p, ps, hp⟩ := List.exists_cons_of_ne_nil (read_ne_nil (c := c) h)
  exact ⟨p, by simp [hp], start_of_mem_head (R := rowReader D) (x := x) (by simp [hp])⟩

theorem part_append (i : ℕ) :
    part input (border numThreads input) i ++ input.drop (border numThreads input (i + 1))
      = input.drop (border numThreads input i) := by
  have hle : border numThreads input i ≤ border numThreads input (i + 1) := border_mono (Nat.le_succ i)
  conv_rhs => rw [← List.take_append_drop (border numThreads input (i + 1) - border numThreads input i)
    (input.drop (border numThreads input i))]
  rw [part, List.drop_drop, Nat.add_sub_cancel' hle]

include hborder in
/-- behind a border with anything to read, a row begins at this border -/
theorem exists_row_at (i n : ℕ) (hi0 : 0 < i) (hin : i + n = numThreads)
    (h : ¬ Blank D (input.drop (border numThreads input i))) :
    ∃ p ∈ readPieces (rowReader D) (border numThreads input i) (parts input (border numThreads input) i n),
      p.start = border numThreads input i := by
  induction n generalizing i with
  | zero =>
    have hlast : border numThreads input i = input.length := by
      rw [border, if_neg (by omega), if_neg (by omega)]
    rw [hlast, List.drop_length] at h
    exact absurd (.inl rfl) h
  | succ n ih =>
    have hle : border numThreads input i ≤ border numThreads input (i + 1) := border_mono (Nat.le_succ i)
    have hlen := length_part (x := input) (B := border numThreads input) border_le i
    rw [parts_succ, readPieces]
    rcases Nat.eq_or_lt_of_le hle with heq | hlt
    · -- an empty part: the next one begins at the same place
      obtain ⟨p, hp, hstart⟩ := ih (i + 1) (by omega) (by omega) (by rw [← heq]; exact h)
      refine ⟨p, List.mem_append_right _ ?_, hstart.trans heq.symm⟩
      rwa [hlen, Nat.add_sub_cancel' hle]
    · have hpart : ¬ Blank D (part input (border numThreads input) i) := by
        by_cases hnext : i + 1 < numThreads
        · refine not_blank_before hborder (by omega : 0 < i + 1) hnext fun c hc => ?_
          exact mem_part (by omega) (by omega) hc
        · have hlast : border numThreads input (i + 1) = input.length := by
            rw [border, if_neg (by omega), if_neg hnext]
          have happ := @part_append numThreads input i
          rw [hlast, List.drop_length, List.append_nil] at happ
          rwa [happ]
      obtain ⟨p, hp, hstart⟩ := exists_start (c := border numThreads input i) hpart
      exact ⟨p, List.mem_append_left _ hp, hstart⟩

/-- behind a border with nothing to read, no thread reads anything -/
theorem no_rows_behind (i n : ℕ) (h : Blank D (input.drop (border numThreads input i))) :
    readPieces (rowReader D) (border numThreads input i) (parts input (border numThreads input) i n) = [] := by
  induction n generalizing i with
  | zero => rfl
  | succ n ih =>
    have hle : border numThreads input i ≤ border numThreads input (i + 1) := border_mono (Nat.le_succ i)
    rw [← part_append i] at h
    obtain ⟨hpart, hrest⟩ := h.of_append
    rw [parts_succ, readPieces, read_of_none (R := rowReader D) (nextRow_none.2 hpart),
      length_part border_le, Nat.add_sub_cancel' hle, ih (i + 1) hrest]
    rfl

/-- the rows of the first thread and those of the others -/
theorem threadRows_succ (m : ℕ) (hm : numThreads = m + 1) :
    threadRows D header numThreads input
      = (read (rowReader D) 0 (part input (border numThreads input) 0)).drop (headerRows header 0)
        ++ readPieces (rowReader D) (border numThreads input 1) (parts input (border numThreads input) 1 m) := by
  have hfirst : border numThreads input 0 = 0 := rfl
  rw [readPieces_parts border_mono border_le, threadRows, hm, List.range_eq_range', List.range'_succ,
    List.flatMap_cons, ← hm, hfirst]
  refine congrArg _ (List.flatMap_congr fun i hi => ?_)
  have : i ≠ 0 := by
    have := List.mem_range'_1.1 hi
    omega
  simp [headerRows, this]

theorem parts_flatten (h : 0 < numThreads) : (parts input (border numThreads input) 0 numThreads).flatten = input := by
  have hlast : border numThreads input numThreads = input.length := by
    rw [border, if_neg (by omega), if_neg (lt_irrefl _)]
  have hfirst : border numThreads input 0 = 0 := rfl
  rw [flatten_parts border_mono, Nat.zero_add, hlast, hfirst, List.drop_zero, Nat.sub_zero, List.take_length]

section Fits

variable (hthreads : 1 < numThreads)

/-- the borders are the cuts between the parts -/
theorem border_mem_cuts {i : ℕ} (hi0 : 0 < i) (hi : i < numThreads) :
    border numThreads input i ∈ cuts 0 (parts input (border numThreads input) 0 numThreads) := by
  obtain ⟨m, rfl⟩ : ∃ m, numThreads = m + 1 := ⟨numThreads - 1, by omega⟩
  have h := cuts_parts (x := input) (B := border (m + 1) input) border_mono border_le 0 m
  rw [show border (m + 1) input 0 = 0 from rfl] at h
  rw [h]
  exact List.mem_map_of_mem (List.mem_range'_1.2 (by omega))

/-- all rows of the first thread and those of the others -/
theorem readPieces_all {m : ℕ} (hm : numThreads = m + 1) :
    readPieces (rowReader D) 0 (parts input (border numThreads input) 0 numThreads)
      = read (rowReader D) 0 (part input (border numThreads input) 0)
        ++ readPieces (rowReader D) (border numThreads input 1) (parts input (border numThreads input) 1 m) := by
  have hfirst : border numThreads input 0 = 0 := rfl
  have hparts : parts input (border numThreads input) 0 numThreads
      = part input (border numThreads input) 0 :: parts input (border numThreads input) 1 m := by
    rw [← parts_succ, ← hm]
  rw [hparts, readPieces, length_part border_le, hfirst, Nat.sub_zero, Nat.zero_add]

theorem mem_readPieces_of_mem {m : ℕ} (hm : numThreads = m + 1) {row : Placed Row}
    (h : row ∈ threadRows D header numThreads input) :
    row ∈ readPieces (rowReader D) 0 (parts input (border numThreads input) 0 numThreads) := by
  rw [threadRows_succ m hm] at h
  rw [readPieces_all hm]
  rcases List.mem_append.1 h with h | h
  · exact List.mem_append_left _ (List.mem_of_mem_drop h)
  · exact List.mem_append_right _ h

/-- the rows of the threads from `i` on are among those of the threads from 1 on -/
theorem mem_readPieces_mono {i m n : ℕ} (hi : 0 < i) (hin : i + n = m + 1) {row : Placed Row}
    (h : row ∈ readPieces (rowReader D) (border numThreads input i) (parts input (border numThreads input) i n)) :
    row ∈ readPieces (rowReader D) (border numThreads input 1) (parts input (border numThreads input) 1 m) := by
  rw [readPieces_parts border_mono border_le] at h ⊢
  obtain ⟨j, hj, hrow⟩ := List.mem_flatMap.1 h
  have := List.mem_range'_1.1 hj
  exact List.mem_flatMap.2 ⟨j, List.mem_range'_1.2 (by omega), hrow⟩

include hborder hthreads in
theorem perm_of_fits (hfits : Fits D header numThreads input) : (threadRows D header numThreads input).Perm
      ((read (rowReader D) 0 input).drop (headerRows header 0)) := by
  obtain ⟨m, hm⟩ : ∃ m, numThreads = m + 1 := ⟨numThreads - 1, by omega⟩
  have hfirst : border numThreads input 0 = 0 := rfl
  have hone : 0 < border numThreads input 1 := hborder 1 one_pos hthreads
  rw [threadRows_succ m hm]
  rcases hfits with hacross | ⟨hheader, hlen, hblank⟩
  · have hall : readPieces (rowReader D) 0 (parts input (border numThreads input) 0 numThreads)
        = read (rowReader D) 0 input := by
      have h := readPieces_eq (R := rowReader D) 0 (parts input (border numThreads input) 0 numThreads)
      rw [parts_flatten (by omega)] at h
      refine h fun b hb row hrow => ?_
      have hcuts := cuts_parts (x := input) (B := border numThreads input) border_mono border_le 0 m
      rw [hfirst] at hcuts
      rw [show parts input (border numThreads input) 0 numThreads
        = parts input (border numThreads input) 0 (m + 1) by rw [← hm], hcuts] at hb
      obtain ⟨i, hi, rfl⟩ := List.mem_map.1 hb
      have := List.mem_range'_1.1 hi
      exact hacross i (by omega) (by omega) row hrow
    -- the first thread has a terminator, so it has the header
    have hpart : ¬ Blank D (part input (border numThreads input) 0) :=
      not_blank_before hborder one_pos hthreads fun c hc => mem_part (by omega) (by rw [Nat.zero_add]; omega) hc
    have hpos := List.length_pos_iff.2 (read_ne_nil (c := 0) hpart)
    rw [← hall, readPieces_all hm, List.drop_append_of_le_length]
    unfold headerRows
    split_ifs <;> omega
  · have hrest := no_rows_behind (D := D) 1 m (hblank 1 one_pos hthreads)
    have hhead : headerRows header 0 = 1 := by simp [headerRows, hheader]
    rw [hrest, List.append_nil, hhead, List.drop_eq_nil_of_le hlen, List.drop_eq_nil_of_le]
    -- the first thread has at most the part of the header that lies in front of the border
    have hinput := @part_append numThreads input 0
    rw [hfirst, List.drop_zero, Nat.zero_add] at hinput
    cases hr : nextRow D (part input (border numThreads input) 0) with
    | none => simp [read_of_none (R := rowReader D) hr]
    | some v =>
      obtain ⟨row, z⟩ := v
      rw [read_of_some (R := rowReader D) hr]
      have hz : Blank D z := by
        by_cases hnil : z = []
        · exact .inl hnil
        · have hext := nextRow_extend hr hnil (input.drop (border numThreads input 1))
          rw [hinput] at hext
          rw [read_of_some (R := rowReader D) hext, List.length_cons] at hlen
          have hnone := List.length_eq_zero_iff.1 (Nat.le_zero.1 (Nat.le_of_succ_le_succ hlen))
          exact (nextRow_none.1 (read_eq_nil.1 hnone)).of_append.1
      rw [read_of_none (R := rowReader D) (nextRow_none.2 hz)]
      simp

include hborder hthreads in
theorem fits_of_perm (hperm : (threadRows D header numThreads input).Perm
      ((read (rowReader D) 0 input).drop (headerRows header 0))) : Fits D header numThreads input := by
  obtain ⟨m, hm⟩ : ∃ m, numThreads = m + 1 := ⟨numThreads - 1, by omega⟩
  by_cases hacross : ∀ i, 0 < i → i < numThreads → ∀ row ∈ read (rowReader D) 0 input,
      ¬ Across (border numThreads input i) row
  · exact .inl hacross
  push Not at hacross
  obtain ⟨i, hi0, hi, first, hfirst, hcross⟩ := hacross
  -- only the header can lie across a border
  have hnot : first ∉ (read (rowReader D) 0 input).drop (headerRows header 0) := by
    intro h
    exact not_across_of_mem 0 _ _ (border_mem_cuts hi0 hi) first (mem_readPieces_of_mem hm (hperm.mem_iff.2 h)) hcross
  have hheader : header = true := by
    by_contra h
    exact hnot (by simpa [headerRows, h] using hfirst)
  have hdrop : headerRows header 0 = 1 := by simp [headerRows, hheader]
  rw [hdrop] at hperm hnot
  obtain ⟨first', rows, hrows⟩ := List.exists_cons_of_ne_nil (List.ne_nil_of_mem hfirst)
  rw [hrows, List.drop_one, List.tail_cons] at hperm hnot
  obtain rfl : first = first' := by
    rw [hrows] at hfirst
    exact (List.mem_cons.1 hfirst).resolve_right hnot
  have hpair := read_pairwise (R := rowReader D) 0 input
  rw [hrows, List.pairwise_cons] at hpair
  -- so everything that is handed over lies behind the header
  have hbehind : ∀ row ∈ threadRows D header numThreads input, first.stop ≤ row.start :=
    fun row hrow => hpair.1 row (hperm.mem_iff.1 hrow)
  rw [threadRows_succ m hm] at hbehind hperm
  have hcut : ∀ j, 0 < j → j < numThreads → border numThreads input j < first.stop →
      Blank D (input.drop (border numThreads input j)) := by
    intro j hj0 hj hlt
    by_contra hne
    obtain ⟨row, hrow, hstart⟩ := exists_row_at hborder j (numThreads - j) hj0 (by omega) hne
    have := hbehind row (List.mem_append_right _ (mem_readPieces_mono hj0 (by omega) hrow))
    omega
  have hblank : ∀ j, 0 < j → j < numThreads → Blank D (input.drop (border numThreads input j)) := by
    intro j hj0 hj
    rcases lt_or_ge (border numThreads input j) first.stop with hlt | hge
    · exact hcut j hj0 hj hlt
    · -- the terminator in front of this border lies behind the border inside of the header
      refine absurd (hcut i hi0 hi hcross.2) (not_blank_before hborder hj0 hj fun c hc => ?_)
      have hlt := hcross.2
      refine List.mem_of_getElem? (i := border numThreads input j - 1 - border numThreads input i) ?_
      rw [List.getElem?_drop, Nat.add_sub_cancel' (by omega), hc]
  refine .inr ⟨hheader, ?_, hblank⟩
  have hrest := no_rows_behind (D := D) 1 m (hblank 1 one_pos hthreads)
  rw [hrest, List.append_nil, hdrop] at hperm hbehind
  have hnil : (read (rowReader D) 0 (part input (border numThreads input) 0)).drop 1 = [] := by
    refine List.eq_nil_iff_forall_not_mem.2 fun row hrow => ?_
    have hplace := read_places 0 _ row (List.mem_of_mem_drop hrow)
    rw [length_part border_le] at hplace
    simp only [Nat.zero_add] at hplace
    have hmono : border numThreads input 1 ≤ border numThreads input i := border_mono hi0
    have := hbehind row hrow
    have := hcross.2
    omega
  rw [hnil] at hperm
  rw [hrows, List.length_cons, hperm.nil_eq.symm]
  simp

end Fits

/-- With more threads than bytes all threads begin at the beginning of the file. -/
theorem not_agrees_of_lt (hinput : input ≠ []) (hthreads : 1 < numThreads) (hsize : input.length < numThreads)
    {rows : List (Placed Row)} (h : importRows D header numThreads input = .ok rows) :
    ¬ rows.Perm ((read (rowReader D) 0 input).drop (headerRows header 0)) := by
  obtain ⟨m, rfl⟩ : ∃ m, numThreads = m + 2 := ⟨numThreads - 2, by omega⟩
  have hpos := List.length_pos_iff.2 hinput
  have hzero : input.length / (m + 2) = 0 := Nat.div_eq_of_lt hsize
  obtain ⟨parts, hparts, rfl⟩ : ∃ parts,
      (List.range (m + 2)).mapM (parseAndImport D header (m + 2) input) = .ok parts ∧ parts.flatten = rows := by
    unfold importRows at h
    cases hp : (List.range (m + 2)).mapM (parseAndImport D header (m + 2) input) with
    | error e => simp [hp, bind, Except.bind] at h
    | ok parts =>
      rw [hp] at h
      exact ⟨parts, rfl, Except.ok.inj h⟩
  have hlast : parseAndImport D header (m + 2) input (m + 1) = .ok (read (rowReader D) 0 input) := by
    unfold parseAndImport
    simp [hzero, make_eq hpos, bind, Except.bind, pure, Except.pure, CsvParser.rows_eq_read, CsvParser.rest]
  have hmake := @make_eq input 0 0 hpos
  simp only [lt_irrefl, false_and, false_or, hpos, true_and, if_false, if_true] at hmake
  have hfirst : parseAndImport D header (m + 2) input 0
      = if lineStart input 0 = 0 then .error .outOfRange
        else .ok ((read (rowReader D) 0 (input.take (lineStart input 0))).drop (headerRows header 0)) := by
    have hstop : ¬ 0 ≥ m + 2 - 1 := by omega
    simp only [parseAndImport, hzero, Nat.zero_mul, if_neg hstop, Nat.add_zero, hmake]
    by_cases h0 : lineStart input 0 = 0
    · simp [h0, bind, Except.bind]
    · simp [h0, bind, Except.bind, pure, Except.pure, CsvParser.rows_eq_read, CsvParser.rest, headerRows]
  rw [List.range_succ_eq_map] at hparts
  obtain ⟨r, rest, hr, hrest, rfl⟩ := List.forall₂_cons_left_iff.1 (Traverse.mapM_ok_iff.1 hparts)
  obtain ⟨r', hmem, hr'⟩ := Traverse.exists_mem_of_mapM_ok (Traverse.mapM_ok_iff.2 hrest)
    (List.mem_map_of_mem (List.mem_range.2 (Nat.lt_succ_self m)))
  obtain rfl : read (rowReader D) 0 input = r' := Except.ok.inj (hlast.symm.trans hr')
  rw [hfirst] at hr
  split_ifs at hr with h0
  obtain rfl := Except.ok.inj hr
  -- the file begins with a terminator, which is a row of both the first and the last thread
  obtain ⟨c, hc, hterm⟩ := lineStart_terminator (Nat.pos_of_ne_zero h0)
  have hone : lineStart input 0 = 1 := by
    have := lineStart_le input 0
    omega
  rw [hone] at hc ⊢
  have hblank : ∀ {x}, c ∈ x → ¬ Blank D x := by
    intro x hx hb
    rw [hb.not_terminator hx] at hterm
    cases hterm
  have hall := List.length_pos_iff.2 (read_ne_nil (c := 0) (hblank (List.mem_of_getElem? hc)))
  have hone' : c ∈ input.take 1 := by
    refine List.mem_of_getElem? (i := 0) ?_
    rw [List.getElem?_take_of_lt one_pos]
    exact hc
  have hpart := List.length_pos_iff.2 (read_ne_nil (c := 0) (hblank hone'))
  have hsub := (List.sublist_flatten_of_mem hmem).length_le
  intro hperm
  have hlen := hperm.length_eq
  rw [List.flatten_cons, List.length_append, List.length_drop, List.length_drop] at hlen
  unfold headerRows at hlen
  split_ifs at hlen <;> omega

end Threads

/-- the borders are behind the first line, there are not more threads than bytes, and the rows fit between the borders;
or there is one thread -/
def Aligned (D : Dialect) (header : Bool) (numThreads : ℕ) (input : List UInt8) : Prop :=
  numThreads = 1
    ∨ numThreads ≤ input.length ∧ (∀ i, 0 < i → i < numThreads → 0 < border numThreads input i)
      ∧ Fits D header numThreads input

/-- The threads read only inside of the file and hand over the rows of the sequential import, each at its place, if and
only if the file is aligned to the borders; the rows themselves are the same then. -/
theorem import_aligned (D : Dialect) (header : Bool) (numThreads : ℕ) (hthreads : 0 < numThreads) (input : List UInt8)
    (hinput : input ≠ []) :
    ∃ sequential, importRows D header 1 input = .ok sequential
      ∧ ((∃ rows, importRows D header numThreads input = .ok rows ∧ rows.Perm sequential)
        ↔ Aligned D header numThreads input)
      ∧ (Aligned D header numThreads input → ∃ rows, importRows D header numThreads input = .ok rows
        ∧ (rows.map Placed.item).Perm (sequential.map Placed.item)) := by
  refine ⟨_, importRows_one hinput, ?_⟩
  have hiff : (∃ rows, importRows D header numThreads input = .ok rows
      ∧ rows.Perm ((read (rowReader D) 0 input).drop (headerRows header 0))) ↔ Aligned D header numThreads input := by
    rcases Nat.eq_or_lt_of_le (Nat.succ_le_of_lt hthreads) with hone | hmany
    · obtain rfl : numThreads = 1 := hone.symm
      exact ⟨fun _ => .inl rfl, fun _ => ⟨_, importRows_one hinput, List.Perm.refl _⟩⟩
    · rcases lt_or_ge input.length numThreads with hlt | hsize
      · constructor
        · rintro ⟨rows, hok, hperm⟩
          exact absurd hperm (not_agrees_of_lt hinput hmany hlt hok)
        · rintro (h | ⟨h, -⟩) <;> omega
      · have hscan : ∀ i, 0 < i → i < numThreads →
            border numThreads input i = lineStart input (input.length / numThreads * i) := by
          intro i hi0 hi
          rw [border, if_neg (by omega), if_pos hi]
        constructor
        · rintro ⟨rows, hok, hperm⟩
          have hborder : ∀ i, 0 < i → i < numThreads → 0 < border numThreads input i := by
            intro i hi0 hi
            by_contra hzero
            have herr : parseAndImport D header numThreads input i = .error .outOfRange :=
              parseAndImport_error hsize hi0 hi (by rw [← hscan i hi0 hi]; omega)
            unfold importRows at hok
            cases hp : (List.range numThreads).mapM (parseAndImport D header numThreads input) with
            | error e => simp [hp, bind, Except.bind] at hok
            | ok parts =>
              obtain ⟨r, -, hr⟩ := Traverse.exists_mem_of_mapM_ok hp (List.mem_range.2 hi)
              rw [herr] at hr
              cases hr
          rw [importRows_ok hsize fun i hi0 hi => by rw [← hscan i hi0 hi]; exact hborder i hi0 hi] at hok
          obtain rfl := Except.ok.inj hok
          exact .inr ⟨hsize, hborder, fits_of_perm hborder hmany hperm⟩
        · rintro (h | ⟨-, hborder, hfits⟩)
          · omega
          · refine ⟨_, importRows_ok hsize fun i hi0 hi => ?_, perm_of_fits hborder hmany hfits⟩
            rw [← hscan i hi0 hi]
            exact hborder i hi0 hi
  refine ⟨hiff, fun h => ?_⟩
  obtain ⟨rows, hok, hperm⟩ := hiff.2 h
  exact ⟨rows, hok, hperm.map _⟩

/-- comma and quotation mark -/
def commas : Dialect := ⟨44, 34⟩

/-- a header and the lines "bc" and "d"; the middle of the file is in the first of them -/
def plainLines : List UInt8 := [97, 10, 98, 99, 10, 100]

theorem import_aligned_plainLines :
    ∃ rows, importRows commas true 2 plainLines = .ok rows ∧ (rows.map Placed.item).Perm [[[98, 99]], [[100]]] := by
  obtain ⟨sequential, hseq, -, h⟩ := import_aligned commas true 2 (by decide) plainLines (by decide)
  have hone : ∀ i, 0 < i → i < 2 → i = 1 := by omega
  have halign : Aligned commas true 2 plainLines := by
    refine .inr ⟨by decide, fun i hi0 hi => ?_, .inl fun i hi0 hi => ?_⟩
    · rw [hone i hi0 hi]
      decide
    · rw [hone i hi0 hi]
      decide
  obtain rfl : [⟨2, 5, [[98, 99]]⟩, ⟨5, 6, [[100]]⟩] = sequential := Except.ok.inj hseq
  exact h halign

/-- a header and a quoted field with a line break, which is the middle of the file -/
def quotedLines : List UInt8 := [97, 10, 34, 98, 10, 99, 34, 10]

/-- The border is moved to behind the line break in the quotes, and both halves of the field become rows. -/
theorem import_splits_field :
    importRows commas true 2 quotedLines = .ok [⟨2, 5, [[98, 10]]⟩, ⟨5, 8, [[99, 34]]⟩]
    ∧ importRows commas true 1 quotedLines = .ok [⟨2, 8, [[98, 10, 99]]⟩]
    ∧ ¬ ([[[98, 10]], [[99, 34]]] : List Row).Perm [[[98, 10, 99]]] := by
  refine ⟨rfl, rfl, by decide⟩

end QikkDB.CSVDataImporter

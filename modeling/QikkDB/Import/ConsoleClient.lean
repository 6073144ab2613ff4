/-
CSV import of the console client (ImportCSV.cs, `Import`, `ParseAndImportBatch`; ParserCSV.cs, the constructor and
`GetNextParsedDataBatch`).

The file is cut at multiples of its length in bytes divided by the number of threads. A thread seeks to its border, drops
the first record it finds and reads on while the border plus the number of characters read is at most the next border.
All threads hand their batches to one client under a mutex; which thread is next is arbitrary.

- CsvHelper's parser is `Records.read`: blank lines are ignored (IgnoreBlankLines, its default), a line ends with CR, LF
  or both. The split into fields and the conversions of .NET are parameters.
- StreamReader decodes UTF-8: of a character that is cut, every byte left is a replacement character; a byte order mark
  at the place of the seek is no character. CharPosition counts UTF-16 units.
- An imported row keeps the record it was read from, so that equal lines of the file can be told apart.

Results:
- `getNextParsedDataBatch_spec`: one batch takes the next due lines of its thread.
- `exec_complete`: every complete run imports what the threads are due, in some order.
- `import_exactly`: each data line is imported once iff one thread alone starts before the end of the line in front of it
  and has at most a chunk of characters up to its beginning.
-/
import Mathlib.Tactic
import QikkDB.Lib.Run
import QikkDB.Lib.Records

namespace QikkDB.ImportCSV

open Records

/-! ## StreamReader and CsvHelper -/

def isLineEnd (c : Char) : Bool := c == '\r' || c == '\n'

/-- one line ending: CR, LF or CR LF -/
def skipLineEnd : List Char → List Char
  | [] => []
  | [c] => if isLineEnd c then [] else [c]
  | c :: d :: cs => if c = '\r' ∧ d = '\n' then cs else if isLineEnd c then d :: cs else c :: d :: cs

theorem skipLineEnd_spec (x : List Char) : ∃ e, (∀ c ∈ e, isLineEnd c = true) ∧ x = e ++ skipLineEnd x := by
  match x with
  | [] => exact ⟨[], by simp, rfl⟩
  | [c] =>
    simp only [skipLineEnd]
    split_ifs with h
    · exact ⟨[c], by simpa using h, rfl⟩
    · exact ⟨[], by simp, rfl⟩
  | c :: d :: cs =>
    simp only [skipLineEnd]
    split_ifs with h h'
    · refine ⟨[c, d], ?_, rfl⟩
      simp [h.1, h.2, isLineEnd]
    · exact ⟨[c], by simpa using h', rfl⟩
    · exact ⟨[], by simp, rfl⟩

def format : Format Char := ⟨isLineEnd, skipLineEnd, skipLineEnd_spec⟩

/-- a char of .NET is a UTF-16 unit -/
def codeUnits (c : Char) : ℕ := if c.val < 0x10000 then 1 else 2

def replacement : Char := '\uFFFD'

def byteOrderMark : Char := '\uFEFF'

/-- a CSV text without quotes -/
structure CsvFile where
  text : List Char
  noQuotes : '\x22' ∉ text

/-- GetStreamLength -/
def CsvFile.length (file : CsvFile) : ℕ := weight Char.utf8Size file.text

/-- where the characters begin that a StreamReader delivers after a seek -/
def CsvFile.textStart (file : CsvFile) (position : ℕ) : ℕ :=
  if (seek Char.utf8Size replacement position file.text).head? = some byteOrderMark then position + 3 else position

/-- the characters that a StreamReader delivers after a seek -/
def CsvFile.streamFrom (file : CsvFile) (position : ℕ) : List Char :=
  match seek Char.utf8Size replacement position file.text with
  | [] => []
  | c :: cs => if c = byteOrderMark then cs else c :: cs

/-- IParser -/
structure CsvParser where
  stream : List Char
  charPosition : ℕ

def CsvParser.read (parser : CsvParser) : Option (Record Char) × CsvParser :=
  match Records.read format parser.stream with
  | none => (none, ⟨[], parser.charPosition + weight codeUnits parser.stream⟩)
  | some r =>
    (some r, ⟨r.behind, parser.charPosition + (weight codeUnits parser.stream - weight codeUnits r.behind)⟩)

/-! ## ParserCSV -/

structure Configuration where
  batchSize : ℤ
  hasHeader : Bool

def Configuration.make (batchSize : ℤ) (hasHeader : Bool) : Configuration :=
  ⟨if batchSize ≠ 0 then batchSize else 2 ^ 31 - 1, hasHeader⟩

structure ParserCSV where
  configuration : Configuration
  dataParser : CsvParser
  startBytePosition : ℕ
  endBytePosition : ℕ
  finished : Bool

def ParserCSV.make (file : CsvFile) (configuration : Configuration) (startBytePosition endBytePosition : ℕ) :
    ParserCSV :=
  let dataParser : CsvParser := ⟨file.streamFrom startBytePosition, 0⟩
  { configuration := configuration
    -- the header at the beginning of the file, or the first line of a thread's chunk
    dataParser :=
      if startBytePosition = 0 ∧ configuration.hasHeader = true then dataParser.read.2
      else if startBytePosition > 0 then dataParser.read.2
      else dataParser
    startBytePosition := startBytePosition
    endBytePosition := if endBytePosition ≠ 0 then endBytePosition else file.length
    finished := false }

section Batch

variable {τ V : Type*} (fields : List Char → List (List Char)) (types : List τ) (parse : τ → List Char → Option V)

abbrev Row (V : Type*) := List (Option V)

/-- an empty field, or "null" in any case -/
def isNull (field : List Char) : Bool := field.isEmpty || field.map Char.toLower == ['n', 'u', 'l', 'l']

/-- `none` where the row has another length than the header or a conversion throws -/
def convertRow (row : List (List Char)) : Option (Row V) :=
  if row.length ≠ types.length then none
  else (types.zip row).mapM fun p => if isNull p.2 then some none else (parse p.1 p.2).map some

/-- the loop of GetNextParsedDataBatch with the rows and errors so far; `n` bounds its rounds -/
def batchLoop : ℕ → ParserCSV → List (Record Char × Row V) → ℕ → List (Record Char × Row V) × ℕ × ParserCSV
  | 0, p, rows, errors => (rows, errors, p)
  | n + 1, p, rows, errors =>
    if ((0 < p.configuration.batchSize ∧ (rows.length : ℤ) < p.configuration.batchSize)
          ∨ p.configuration.batchSize = 0)
        ∧ p.startBytePosition + p.dataParser.charPosition < p.endBytePosition then
      match p.dataParser.read with
      | (none, d) => (rows, errors, { p with dataParser := d })
      | (some r, d) =>
        match convertRow types parse (fields r.text) with
        | some row => batchLoop n { p with dataParser := d } (rows ++ [(r, row)]) errors
        | none =>
          -- a row of another length is only counted behind the first row of the batch
          let counted := if (fields r.text).length ≠ types.length ∧ rows.length = 0 then 0 else 1
          batchLoop n { p with dataParser := d } rows (errors + counted)
    else (rows, errors, p)

/-- the batch, with `none` for null, and the parser after it -/
def getNextParsedDataBatch (p : ParserCSV) : Option (List (Record Char × Row V)) × ParserCSV :=
  if p.finished then (none, p)
  else
    match batchLoop fields types parse (p.dataParser.stream.length + 1) p [] 0 with
    | ([], _, p') => (none, { p' with finished := true })
    | (rows, _, p') => (some rows, p')

/-! ## ImportCSV -/

/-- the parsers of the threads and what went to BulkImport -/
structure Import (V : Type*) where
  parsers : List ParserCSV
  imported : List (Record Char × Row V)

/-- one round of ParseAndImportBatch in thread `i` -/
def step (s : Import V) (i : ℕ) : Option (Import V) :=
  match s.parsers[i]? with
  | none => none
  | some p =>
    if p.finished then none
    else
      match getNextParsedDataBatch fields types parse p with
      | (none, p') => some ⟨s.parsers.set i p', s.imported⟩
      | (some rows, p') => some ⟨s.parsers.set i p', s.imported ++ rows⟩

def Import.complete (s : Import V) : Prop := ∀ p ∈ s.parsers, p.finished = true

def effectiveThreads (streamLength : ℕ) (threadsCount : ℤ) (processorCount : ℕ) : ℕ :=
  if threadsCount ≤ 0 then
    if streamLength > 10000000 then processorCount else 1
  else threadsCount.toNat

/-- the parsers as Import starts the threads. The configuration is made without the argument `hasHeader` of Import, so
that it has the default value. -/
def start (V : Type*) (file : CsvFile) (batchSize threadsCount : ℤ) (processorCount : ℕ) : Import V :=
  let threads := effectiveThreads file.length threadsCount processorCount
  let streamThreadLength := file.length / threads
  let configuration := Configuration.make batchSize true
  { parsers := (List.range threads).map fun i =>
      ParserCSV.make file configuration (i * streamThreadLength) (i * streamThreadLength + streamThreadLength + 1)
    imported := [] }

/-- the lines of the file that hold data -/
def dataLines (file : CsvFile) (hasHeader : Bool) : List (Record Char) :=
  if hasHeader then (all format file.text).tail else all format file.text

/-! ## One batch -/

/-- the characters from the beginning of the thread's stream to its end -/
def ParserCSV.total (p : ParserCSV) : ℕ := p.dataParser.charPosition + weight codeUnits p.dataParser.stream

/-- the loop goes on where it stands before `y` -/
def ParserCSV.reach (p : ParserCSV) (y : List Char) : Bool :=
  decide (p.startBytePosition + (p.total - weight codeUnits y) < p.endBytePosition)

/-- the records that the thread still imports -/
def ParserCSV.remaining (p : ParserCSV) : List (Record Char) :=
  if p.finished then [] else due p.reach p.dataParser.stream (all format p.dataParser.stream)

theorem reach_append (p : ParserCSV) (q y : List Char) (h : p.reach y = true) : p.reach (q ++ y) = true := by
  simp only [ParserCSV.reach, decide_eq_true_eq, weight_append] at h ⊢
  omega

theorem reach_stream (p : ParserCSV) :
    p.reach p.dataParser.stream = true
      ↔ p.startBytePosition + p.dataParser.charPosition < p.endBytePosition := by
  simp [ParserCSV.reach, ParserCSV.total]

theorem weight_behind_le {x : List Char} {r : Record Char} (h : Records.read format x = some r) :
    weight codeUnits r.behind ≤ weight codeUnits x := by
  obtain ⟨p, -, hx⟩ := (read_spec h).suffix
  obtain ⟨e, -, hupto⟩ := (read_spec h).upto_suffix
  rw [hx, hupto, weight_append, weight_append]
  omega

/-- a read keeps the number of characters of the stream, and with it what is in reach -/
theorem reach_read (p : ParserCSV) : ({ p with dataParser := p.dataParser.read.2 } : ParserCSV).reach = p.reach := by
  have htotal : ({ p with dataParser := p.dataParser.read.2 } : ParserCSV).total = p.total := by
    simp only [ParserCSV.total, CsvParser.read]
    cases hr : Records.read format p.dataParser.stream with
    | none => simp
    | some r =>
      have := weight_behind_le hr
      simp only
      omega
  funext y
  simp only [ParserCSV.reach, htotal]

/-- what the loop has taken when it ends: the next due records, all of them unless the batch is full -/
structure Taken (p p' : ParserCSV) (rows taken : List (Record Char × Row V)) : Prop where
  due : due p.reach p.dataParser.stream (all format p.dataParser.stream)
    = taken.map Prod.fst ++ Records.due p'.reach p'.dataParser.stream (all format p'.dataParser.stream)
  full : (rows.length + taken.length : ℤ) < p.configuration.batchSize
    → Records.due p'.reach p'.dataParser.stream (all format p'.dataParser.stream) = []
  converted : ∀ t ∈ taken, convertRow types parse (fields t.1.text) = some t.2
  rest : ∀ r ∈ all format p'.dataParser.stream, r ∈ all format p.dataParser.stream
  shorter : p'.dataParser.stream.length + taken.length ≤ p.dataParser.stream.length
  finished : p'.finished = p.finished
  configuration : p'.configuration = p.configuration

theorem batchLoop_taken (n : ℕ) (p : ParserCSV) (rows : List (Record Char × Row V)) (errors : ℕ)
    (hn : p.dataParser.stream.length < n) (hsize : 0 < p.configuration.batchSize)
    (hconv : ∀ r ∈ all format p.dataParser.stream, (convertRow types parse (fields r.text)).isSome) :
    ∃ taken errors' p', batchLoop fields types parse n p rows errors = (rows ++ taken, errors', p')
      ∧ Taken fields types parse p p' rows taken := by
  induction n generalizing p rows errors with
  | zero => omega
  | succ n ih =>
    unfold batchLoop
    split_ifs with hgo
    · -- the loop goes on
      have hreach := (reach_stream p).2 hgo.2
      cases hr : Records.read format p.dataParser.stream with
      | none =>
        have hd : p.dataParser.read
            = (none, ⟨[], p.dataParser.charPosition + weight codeUnits p.dataParser.stream⟩) := by
          simp [CsvParser.read, hr]
        rw [hd]
        have hnil : all format ([] : List Char) = [] := rfl
        refine ⟨[], errors, { p with dataParser := ⟨[], _⟩ }, by rw [List.append_nil],
          ⟨?_, fun _ => ?_, by simp, ?_, by simp, rfl, rfl⟩⟩
        · rw [all_of_none hr]
          rfl
        · rfl
        · simp [hnil]
      | some r =>
        have hd : p.dataParser.read = (some r, ⟨r.behind,
            p.dataParser.charPosition + (weight codeUnits p.dataParser.stream - weight codeUnits r.behind)⟩) := by
          simp [CsvParser.read, hr]
        have hsame := reach_read p
        rw [hd] at hsame ⊢
        have hall := all_of_some hr
        obtain ⟨row, hrow⟩ := Option.isSome_iff_exists.1 (hconv r (by simp [hall]))
        have hlt := (read_spec hr).length_behind
        simp only [hrow]
        obtain ⟨taken, errors', p', heq, ht⟩ := ih { p with dataParser := ⟨r.behind, _⟩ } (rows ++ [(r, row)]) errors
          (by simp only; omega) hsize (fun r' h' => hconv r' (by simp [hall, h']))
        refine ⟨(r, row) :: taken, errors', p', by rw [heq]; simp, ⟨?_, ?_, ?_, ?_, ?_, ht.finished, ht.configuration⟩⟩
        · have hdue := ht.due
          simp only [hsame] at hdue
          rw [hall, Records.due, if_pos hreach, hdue]
          rfl
        · intro hfull
          refine ht.full ?_
          simp only [List.length_append, List.length_cons, List.length_nil] at hfull ⊢
          push_cast at hfull ⊢
          omega
        · intro t htm
          rcases List.mem_cons.1 htm with rfl | htm
          · exact hrow
          · exact ht.converted t htm
        · intro r' h'
          rw [hall]
          exact List.mem_cons_of_mem r (ht.rest r' h')
        · have hshort := ht.shorter
          simp only [List.length_cons] at hshort ⊢
          omega
    · refine ⟨[], errors, p, by simp, ⟨rfl, fun hlt => ?_, by simp, fun r h => h, by simp, rfl, rfl⟩⟩
      -- the batch is not full, so the thread's end is reached
      refine due_of_not_reach (by_contra fun hreach => hgo ⟨.inl ⟨hsize, by simpa using hlt⟩, ?_⟩) _
      exact (reach_stream p).1 (by simpa using hreach)

/-- one call of a thread that is not at its end takes the next of its remaining records, and none only at its end -/
structure Delivered (p p' : ParserCSV) (taken : List (Record Char × Row V)) : Prop where
  remaining : p.remaining = taken.map Prod.fst ++ p'.remaining
  converted : ∀ t ∈ taken, convertRow types parse (fields t.1.text) = some t.2
  rest : ∀ r ∈ all format p'.dataParser.stream, r ∈ all format p.dataParser.stream
  progress : p'.finished = true ∨ p'.finished = false ∧ p'.dataParser.stream.length < p.dataParser.stream.length
  configuration : p'.configuration = p.configuration

theorem getNextParsedDataBatch_spec (p : ParserCSV) (hfin : p.finished = false)
    (hsize : 0 < p.configuration.batchSize)
    (hconv : ∀ r ∈ all format p.dataParser.stream, (convertRow types parse (fields r.text)).isSome) :
    Delivered fields types parse p (getNextParsedDataBatch fields types parse p).2
      ((getNextParsedDataBatch fields types parse p).1.getD []) := by
  obtain ⟨taken, errors, p', heq, ht⟩ :=
    batchLoop_taken fields types parse (p.dataParser.stream.length + 1) p [] 0 (by omega) hsize hconv
  have hfin' : p'.finished = false := ht.finished.trans hfin
  have hremaining : p.remaining
      = taken.map Prod.fst ++ due p'.reach p'.dataParser.stream (all format p'.dataParser.stream) := by
    simp only [ParserCSV.remaining, hfin, Bool.false_eq_true, if_false]
    exact ht.due
  unfold getNextParsedDataBatch
  rw [if_neg (by simp [hfin]), heq, List.nil_append]
  cases taken with
  | nil =>
    refine ⟨?_, by simp, ht.rest, .inl rfl, ht.configuration⟩
    rw [hremaining, ht.full (by simpa using hsize)]
    rfl
  | cons t taken =>
    refine ⟨?_, ht.converted, ht.rest, .inr ⟨hfin', ?_⟩, ht.configuration⟩
    · rw [hremaining, ParserCSV.remaining]
      simp [hfin']
    · have hshort := ht.shorter
      rw [List.length_cons] at hshort
      change p'.dataParser.stream.length < p.dataParser.stream.length
      omega

/-- a negative batch size ends a thread at once -/
theorem getNextParsedDataBatch_of_neg (p : ParserCSV) (hfin : p.finished = false)
    (hsize : p.configuration.batchSize < 0) :
    getNextParsedDataBatch fields types parse p = (none, { p with finished := true }) := by
  have hloop : batchLoop fields types parse (p.dataParser.stream.length + 1) p [] 0 = ([], 0, p) := by
    unfold batchLoop
    rw [if_neg]
    rintro ⟨⟨h, -⟩ | h, -⟩ <;> omega
  unfold getNextParsedDataBatch
  rw [if_neg (by simp [hfin]), hloop]

/-! ## Runs of the threads -/

theorem step_eq {s s' : Import V} {i : ℕ} (h : step fields types parse s i = some s') :
    ∃ A p B, s.parsers = A ++ p :: B ∧ p.finished = false
      ∧ s'.parsers = A ++ (getNextParsedDataBatch fields types parse p).2 :: B
      ∧ s'.imported = s.imported ++ (getNextParsedDataBatch fields types parse p).1.getD [] := by
  unfold step at h
  split at h
  · cases h
  · rename_i p hp
    split_ifs at h with hfin
    obtain ⟨hi, hget⟩ := List.getElem?_eq_some_iff.1 hp
    obtain ⟨A, B, hsplit, -, hset⟩ :
        ∃ A B, s.parsers = A ++ s.parsers[i] :: B ∧ A.length = i
          ∧ s.parsers.set i (getNextParsedDataBatch fields types parse p).2
            = A ++ (getNextParsedDataBatch fields types parse p).2 :: B := List.exists_of_set hi
    rw [hget] at hsplit
    refine ⟨A, p, B, hsplit, by simpa using hfin, ?_⟩
    cases hbatch : getNextParsedDataBatch fields types parse p with
    | mk batch p' =>
      rw [hbatch] at h hset
      cases batch with
      | none =>
        obtain rfl := Option.some.inj h
        exact ⟨hset, by simp⟩
      | some rows =>
        obtain rfl := Option.some.inj h
        exact ⟨hset, rfl⟩

/-- what was imported and what the threads still have to import is `owned` -/
structure Inv (owned : List (Record Char)) (s : Import V) : Prop where
  perm : (s.imported.map Prod.fst ++ s.parsers.flatMap ParserCSV.remaining).Perm owned
  converted : ∀ t ∈ s.imported, convertRow types parse (fields t.1.text) = some t.2
  batchSize : ∀ p ∈ s.parsers, 0 < p.configuration.batchSize
  convertible : ∀ p ∈ s.parsers, ∀ r ∈ all format p.dataParser.stream,
    (convertRow types parse (fields r.text)).isSome

theorem step_inv {owned : List (Record Char)} {s s' : Import V} {i : ℕ} (hinv : Inv fields types parse owned s)
    (h : step fields types parse s i = some s') : Inv fields types parse owned s' := by
  obtain ⟨A, p, B, hparsers, hfin, hset, himported⟩ := step_eq fields types parse h
  have hmem : p ∈ s.parsers := by simp [hparsers]
  have hd := getNextParsedDataBatch_spec fields types parse p hfin (hinv.batchSize p hmem) (hinv.convertible p hmem)
  have hkept : ∀ q ∈ s'.parsers, q ∈ s.parsers ∨ q = (getNextParsedDataBatch fields types parse p).2 := by
    intro q hq
    rw [hset] at hq
    rw [hparsers]
    simp only [List.mem_append, List.mem_cons] at hq ⊢
    tauto
  refine ⟨?_, ?_, ?_, ?_⟩
  · refine List.Perm.trans ?_ hinv.perm
    rw [himported, hset, hparsers]
    simp only [List.map_append, List.flatMap_append, List.flatMap_cons, hd.remaining, List.append_assoc]
    refine List.Perm.append_left _ ?_
    simp only [← List.append_assoc]
    exact List.Perm.append_right _ (List.Perm.append_right _ List.perm_append_comm)
  · intro t ht
    rw [himported] at ht
    rcases List.mem_append.1 ht with ht | ht
    · exact hinv.converted t ht
    · exact hd.converted t ht
  · intro q hq
    rcases hkept q hq with hq | rfl
    · exact hinv.batchSize q hq
    · rw [hd.configuration]
      exact hinv.batchSize p hmem
  · intro q hq r hr
    rcases hkept q hq with hq | rfl
    · exact hinv.convertible q hq r hr
    · exact hinv.convertible p hmem r (hd.rest r hr)

theorem remaining_of_finished {p : ParserCSV} (h : p.finished = true) : p.remaining = [] := by
  simp [ParserCSV.remaining, h]

/-- a complete run has imported everything, in some order -/
theorem exec_complete {owned : List (Record Char)} {s s' : Import V} (hinv : Inv fields types parse owned s)
    (schedule : List ℕ) (h : Run.exec (step fields types parse) s schedule = some s') (hs' : s'.complete) :
    (s'.imported.map Prod.fst).Perm owned ∧ ∀ t ∈ s'.imported, convertRow types parse (fields t.1.text) = some t.2 := by
  have hreach : Run.Reach (step fields types parse) (fun _ _ => True) s s' :=
    Run.reach_exec .refl schedule (fun _ _ _ => trivial) h
  have hinv' := Run.reach_inv (Inv fields types parse owned) hinv (fun _ _ _ hi _ hs => step_inv _ _ _ hi hs) hreach
  refine ⟨?_, hinv'.converted⟩
  have hnone : s'.parsers.flatMap ParserCSV.remaining = [] :=
    List.flatMap_eq_nil_iff.2 fun p hp => remaining_of_finished (hs' p hp)
  have := hinv'.perm
  rwa [hnone, List.append_nil] at this

/-- bounds the calls that a thread still makes -/
def ParserCSV.size (p : ParserCSV) : ℕ := if p.finished then 0 else p.dataParser.stream.length + 1

/-- threads whose calls make progress can all run to their end -/
theorem exists_complete (Q : ParserCSV → Prop)
    (hQ : ∀ p, Q p → p.finished = false → Q (getNextParsedDataBatch fields types parse p).2
      ∧ (getNextParsedDataBatch fields types parse p).2.size < p.size)
    (s : Import V) (hs : ∀ p ∈ s.parsers, Q p) :
    ∃ schedule s', Run.exec (step fields types parse) s schedule = some s' ∧ s'.complete := by
  induction hn : (s.parsers.map ParserCSV.size).sum using Nat.strong_induction_on generalizing s with
  | _ n ih =>
    by_cases hall : s.complete
    · exact ⟨[], s, rfl, hall⟩
    · simp only [Import.complete, not_forall] at hall
      obtain ⟨p, hp, hfin⟩ := hall
      obtain ⟨i, hi, rfl⟩ := List.getElem_of_mem hp
      have hget : s.parsers[i]? = some s.parsers[i] := List.getElem?_eq_getElem hi
      obtain ⟨s', hstep⟩ : ∃ s', step fields types parse s i = some s' := by
        unfold step
        simp only [hget, if_neg hfin]
        split
        · exact ⟨_, rfl⟩
        · exact ⟨_, rfl⟩
      obtain ⟨A, p, B, hparsers, hpfin, hset, -⟩ := step_eq fields types parse hstep
      have hpQ := hQ p (hs p (by simp [hparsers])) hpfin
      have hQ' : ∀ q ∈ s'.parsers, Q q := by
        intro q hq
        rw [hset] at hq
        rcases List.mem_append.1 hq with hq | hq
        · exact hs q (by simp [hparsers, hq])
        · rcases List.mem_cons.1 hq with rfl | hq
          · exact hpQ.1
          · exact hs q (by simp [hparsers, hq])
      have hlt : (s'.parsers.map ParserCSV.size).sum < n := by
        rw [← hn, hset, hparsers]
        simp only [List.map_append, List.map_cons, List.sum_append, List.sum_cons]
        have := hpQ.2
        omega
      obtain ⟨schedule, s'', hexec, hcomplete⟩ := ih _ hlt s' hQ' rfl
      exact ⟨i :: schedule, s'', by simp [Run.exec, hstep, hexec], hcomplete⟩

/-! ## The threads of an import -/

theorem seek_eq_cons {s : ℕ} {x y : List Char} {c : Char} (h : seek Char.utf8Size replacement s x = c :: y)
    (hc : c ≠ replacement) : ∃ p, x = p ++ c :: y ∧ weight Char.utf8Size p = s := by
  induction x generalizing s with
  | nil => cases s <;> simp [seek] at h
  | cons d x ih =>
    cases s with
    | zero => exact ⟨[], h, rfl⟩
    | succ s =>
      rw [seek] at h
      split_ifs at h with hd
      · obtain ⟨p, rfl, hp⟩ := ih h
        exact ⟨d :: p, rfl, by rw [weight_cons]; omega⟩
      · -- the character `d` is cut, and the stream starts with what stands for it
        obtain ⟨n, hn⟩ : ∃ n, d.utf8Size - (s + 1) = n + 1 := ⟨d.utf8Size - (s + 1) - 1, by omega⟩
        rw [hn, List.replicate_succ, List.cons_append] at h
        exact absurd (List.cons.inj h).1.symm hc

theorem streamFrom_eq (file : CsvFile) (position : ℕ) :
    file.streamFrom position = seek Char.utf8Size replacement (file.textStart position) file.text := by
  unfold CsvFile.streamFrom CsvFile.textStart
  cases hx : seek Char.utf8Size replacement position file.text with
  | nil => simp [hx]
  | cons c cs =>
    simp only [List.head?_cons, Option.some.injEq]
    split_ifs with hc
    · obtain ⟨p, hp, hw⟩ := seek_eq_cons hx (by rw [hc]; decide)
      have hsize : weight Char.utf8Size (p ++ [c]) = position + 3 := by
        rw [weight_append, hw, hc]
        rfl
      have hsplit : p ++ c :: cs = (p ++ [c]) ++ cs := by simp
      rw [hp, hsplit, seek_append_of_le Char.utf8Size_pos cs hsize.le, hsize, Nat.sub_self, seek]
    · exact hx.symm

/-- the length of a thread's chunk -/
def chunk (file : CsvFile) (threads : ℕ) : ℕ := file.length / threads

/-- thread `i` imports the line behind `r`: it starts before the end of `r`, and from its start to the beginning of that
line there are no more characters than a chunk has bytes -/
def Takes (file : CsvFile) (threads i : ℕ) (r : Record Char) : Prop :=
  file.textStart (i * chunk file threads) + weight Char.utf8Size r.upto < file.length
    ∧ weight codeUnits (file.streamFrom (i * chunk file threads)) ≤ weight codeUnits r.behind + chunk file threads

instance (file : CsvFile) (threads i : ℕ) (r : Record Char) : Decidable (Takes file threads i r) :=
  inferInstanceAs (Decidable (_ ∧ _))

theorem isEnd_size (c : Char) (h : format.isEnd c = true) : c.utf8Size = 1 := by
  simp only [format, isLineEnd, Bool.or_eq_true, beq_iff_eq] at h
  rcases h with rfl | rfl <;> rfl

/-- the parser that thread `i` starts with -/
def parserOf (file : CsvFile) (batchSize : ℤ) (threads i : ℕ) : ParserCSV :=
  ParserCSV.make file (Configuration.make batchSize true) (i * chunk file threads)
    (i * chunk file threads + chunk file threads + 1)

theorem parserOf_eq (file : CsvFile) (batchSize : ℤ) (threads i : ℕ) :
    parserOf file batchSize threads i
      = { configuration := Configuration.make batchSize true
          dataParser := (⟨file.streamFrom (i * chunk file threads), 0⟩ : CsvParser).read.2
          startBytePosition := i * chunk file threads
          endBytePosition := i * chunk file threads + chunk file threads + 1
          finished := false } := by
  rcases Nat.eq_zero_or_pos (i * chunk file threads) with h | h
  · simp [parserOf, ParserCSV.make, Configuration.make, h]
  · simp [parserOf, ParserCSV.make, Configuration.make, h]

/-- what the stream of a thread holds behind the record that it drops -/
theorem parserOf_stream (file : CsvFile) (batchSize : ℤ) (threads i : ℕ) :
    ∀ r ∈ all format (parserOf file batchSize threads i).dataParser.stream, r ∈ (all format file.text).tail := by
  intro r hr
  rw [parserOf_eq, CsvParser.read] at hr
  have hread := read_seek Char.utf8Size_pos isEnd_size (b := replacement) (by decide)
    (file.textStart (i * chunk file threads)) file.text
  rw [← streamFrom_eq] at hread
  cases hfirst : Records.read format (file.streamFrom (i * chunk file threads)) with
  | none =>
    rw [hfirst] at hr
    simp [all, upTo] at hr
  | some first =>
    rw [hfirst] at hr hread
    obtain ⟨r', hfind, hb⟩ := Option.map_eq_some_iff.1 hread.symm
    obtain ⟨-, A, B, hsplit, -⟩ := List.find?_eq_some_iff_append.1 hfind
    have hB : B = all format first.behind := (all_split hsplit).trans (by rw [hb])
    have hmem : r ∈ B := hB ▸ hr
    rw [hsplit]
    cases A with
    | nil => exact hmem
    | cons a A => simp [hmem]

theorem parserOf_remaining (file : CsvFile) (batchSize : ℤ) (threads i : ℕ) :
    (parserOf file batchSize threads i).remaining
      = ((followers (all format file.text)).filter fun p => decide (Takes file threads i p.1)).map Prod.snd := by
  obtain ⟨D, hD⟩ : ∃ D, D = file.streamFrom (i * chunk file threads) := ⟨_, rfl⟩
  have hreach : ∀ y, (parserOf file batchSize threads i).reach y
      = decide (weight codeUnits D ≤ weight codeUnits y + chunk file threads) := by
    intro y
    have hstart := reach_read ⟨Configuration.make batchSize true, ⟨D, 0⟩, i * chunk file threads,
      i * chunk file threads + chunk file threads + 1, false⟩
    rw [parserOf_eq, ← hD, hstart]
    simp only [ParserCSV.reach, ParserCSV.total]
    refine decide_eq_decide.2 ?_
    omega
  have hdue := dueBehindFirst_seek (fun p y => reach_append (parserOf file batchSize threads i) p y)
    Char.utf8Size_pos isEnd_size (b := replacement) (by decide) (file.textStart (i * chunk file threads)) file.text
  rw [← streamFrom_eq, ← hD] at hdue
  have hremaining : (parserOf file batchSize threads i).remaining
      = dueBehindFirst format (parserOf file batchSize threads i).reach D := by
    have hfin : (parserOf file batchSize threads i).finished = false := by rw [parserOf_eq]
    have hstream : (parserOf file batchSize threads i).dataParser = (⟨D, 0⟩ : CsvParser).read.2 := by
      rw [parserOf_eq, ← hD]
    rw [ParserCSV.remaining, hfin, hstream, dueBehindFirst, CsvParser.read]
    cases Records.read format D with
    | none => rfl
    | some r => rfl
  rw [hremaining, hdue]
  refine congrArg _ (List.filter_congr fun p _ => ?_)
  rw [hreach, ← Bool.decide_and, hD]
  rfl

/-- what all threads together have to import -/
def shares (file : CsvFile) (threads : ℕ) : List (Record Char) :=
  (List.range threads).flatMap fun i =>
    ((followers (all format file.text)).filter fun p => decide (Takes file threads i p.1)).map Prod.snd

theorem shares_perm (file : CsvFile) (threads : ℕ) :
    (shares file threads).Perm (all format file.text).tail
      ↔ ∀ p ∈ followers (all format file.text), ∃! i, i < threads ∧ Takes file threads i p.1 := by
  have hnodup : ((followers (all format file.text)).map Prod.snd).Nodup := by
    rw [map_snd_followers]
    exact (nodup_all file.text).tail
  have h := shares_perm_iff (followers (all format file.text)) hnodup threads fun i p => decide (Takes file threads i p.1)
  rw [map_snd_followers] at h
  simp only [decide_eq_true_eq] at h
  exact h

theorem start_parsers (file : CsvFile) (batchSize threadsCount : ℤ) (processorCount : ℕ) :
    (start V file batchSize threadsCount processorCount).parsers
      = (List.range (effectiveThreads file.length threadsCount processorCount)).map
          (parserOf file batchSize (effectiveThreads file.length threadsCount processorCount)) := rfl

/-- each data line is due in exactly one thread, and the first line is no data line -/
def ExactlyOnce (file : CsvFile) (hasHeader : Bool) (batchSize : ℤ) (threads : ℕ) : Prop :=
  dataLines file hasHeader = []
    ∨ hasHeader = true ∧ 0 ≤ batchSize
      ∧ ∀ p ∈ followers (all format file.text), ∃! i, i < threads ∧ Takes file threads i p.1

theorem tail_subset_dataLines (file : CsvFile) (hasHeader : Bool) {r : Record Char}
    (hr : r ∈ (all format file.text).tail) : r ∈ dataLines file hasHeader := by
  unfold dataLines
  split_ifs
  · exact hr
  · exact List.mem_of_mem_tail hr

/-- the shares are the data lines only if the first line is none of them -/
theorem shares_perm_dataLines (file : CsvFile) (hasHeader : Bool) {batchSize : ℤ} (hsize : 0 ≤ batchSize)
    (threads : ℕ) :
    (shares file threads).Perm (dataLines file hasHeader) ↔ ExactlyOnce file hasHeader batchSize threads := by
  unfold ExactlyOnce
  have hsub : ∀ r ∈ shares file threads, r ∈ (all format file.text).tail := by
    intro r hr
    obtain ⟨i, -, hr⟩ := List.mem_flatMap.1 hr
    rw [← map_snd_followers]
    exact (List.filter_sublist.map _).subset hr
  cases hasHeader with
  | true =>
    rw [show dataLines file true = (all format file.text).tail from rfl, shares_perm]
    constructor
    · exact fun h => .inr ⟨rfl, hsize, h⟩
    · rintro (hnil | ⟨-, -, h⟩)
      · intro p hp
        have hmem : p.2 ∈ (all format file.text).tail := map_snd_followers _ ▸ List.mem_map_of_mem hp
        simp [hnil] at hmem
      · exact h
  | false =>
    rw [show dataLines file false = all format file.text from rfl]
    cases hall : all format file.text with
    | nil =>
      rw [hall] at hsub
      simp [List.eq_nil_iff_forall_not_mem.2 fun r hr => by simpa using hsub r hr]
    | cons r rs =>
      have hnodup := nodup_all (F := format) file.text
      rw [hall] at hsub hnodup
      have hnot : r ∉ shares file threads := fun hr => (List.nodup_cons.1 hnodup).1 (hsub r hr)
      simp only [reduceCtorEq, Bool.false_eq_true, false_and, or_false, iff_false]
      exact fun hperm => hnot (hperm.mem_iff.2 List.mem_cons_self)

section Start

variable (file : CsvFile) (batchSize threadsCount : ℤ) (processorCount : ℕ)

theorem start_inv (hsize : 0 ≤ batchSize)
    (hconv : ∀ r ∈ (all format file.text).tail, (convertRow types parse (fields r.text)).isSome) :
    Inv fields types parse (shares file (effectiveThreads file.length threadsCount processorCount))
      (start V file batchSize threadsCount processorCount) := by
  refine ⟨?_, by simp [start], ?_, ?_⟩
  · rw [start_parsers, shares, List.flatMap_map]
    simp only [parserOf_remaining]
    exact List.Perm.refl _
  · intro p hp
    rw [start_parsers] at hp
    obtain ⟨i, -, rfl⟩ := List.mem_map.1 hp
    rw [parserOf_eq]
    simp only [Configuration.make]
    split_ifs <;> omega
  · intro p hp r hr
    rw [start_parsers] at hp
    obtain ⟨i, -, rfl⟩ := List.mem_map.1 hp
    exact hconv r (parserOf_stream file batchSize _ i r hr)

/-- with a negative batch size nothing is imported -/
theorem exec_of_neg (hsize : batchSize < 0) {schedule : List ℕ} {s : Import V}
    (h : Run.exec (step fields types parse) (start V file batchSize threadsCount processorCount) schedule = some s) :
    s.imported = [] := by
  have hreach : Run.Reach (step fields types parse) (fun _ _ => True)
      (start V file batchSize threadsCount processorCount) s := Run.reach_exec .refl schedule (fun _ _ _ => trivial) h
  have hinv := Run.reach_inv (fun s : Import V => s.imported = [] ∧ ∀ p ∈ s.parsers, p.configuration.batchSize < 0)
    ⟨rfl, ?_⟩ ?_ hreach
  · exact hinv.1
  · intro p hp
    rw [start_parsers] at hp
    obtain ⟨i, -, rfl⟩ := List.mem_map.1 hp
    rw [parserOf_eq]
    simp only [Configuration.make]
    split_ifs <;> omega
  · rintro s i s' ⟨hnil, hneg⟩ - hstep
    obtain ⟨A, p, B, hparsers, hfin, hset, himported⟩ := step_eq fields types parse hstep
    have hp := hneg p (by simp [hparsers])
    rw [getNextParsedDataBatch_of_neg fields types parse p hfin hp] at hset himported
    refine ⟨by simp [himported, hnil], fun q hq => ?_⟩
    rw [hset] at hq
    rcases List.mem_append.1 hq with hq | hq
    · exact hneg q (by simp [hparsers, hq])
    · rcases List.mem_cons.1 hq with rfl | hq
      · exact hp
      · exact hneg q (by simp [hparsers, hq])

theorem start_exists_complete
    (hconv : ∀ r ∈ (all format file.text).tail, (convertRow types parse (fields r.text)).isSome) :
    ∃ schedule s, Run.exec (step fields types parse) (start V file batchSize threadsCount processorCount) schedule
      = some s ∧ s.complete := by
  refine exists_complete fields types parse (fun p => p.configuration.batchSize ≠ 0
      ∧ ∀ r ∈ all format p.dataParser.stream, (convertRow types parse (fields r.text)).isSome) ?_ _ ?_
  · rintro p ⟨hsize, hp⟩ hfin
    rcases lt_or_gt_of_ne hsize with hneg | hpos
    · rw [getNextParsedDataBatch_of_neg fields types parse p hfin hneg]
      exact ⟨⟨hsize, hp⟩, by simp [ParserCSV.size, hfin]⟩
    · have hd := getNextParsedDataBatch_spec fields types parse p hfin hpos hp
      refine ⟨⟨by rw [hd.configuration]; exact hsize, fun r hr => hp r (hd.rest r hr)⟩, ?_⟩
      rcases hd.progress with h | ⟨h, hlt⟩
      · simp [ParserCSV.size, hfin, h]
      · simpa [ParserCSV.size, hfin, h] using hlt
  · intro p hp
    rw [start_parsers] at hp
    obtain ⟨i, -, rfl⟩ := List.mem_map.1 hp
    refine ⟨?_, fun r hr => hconv r (parserOf_stream file batchSize _ i r hr)⟩
    rw [parserOf_eq]
    simp only [Configuration.make]
    split_ifs <;> omega

end Start

/-- the rows of imported lines -/
theorem rows_eq {l : List (Record Char × Row V)} (h : ∀ t ∈ l, convertRow types parse (fields t.1.text) = some t.2) :
    l.map Prod.snd = (l.map Prod.fst).filterMap fun r => convertRow types parse (fields r.text) := by
  rw [List.filterMap_map, ← List.filterMap_eq_map]
  exact List.filterMap_congr fun t ht => (h t ht).symm

/-- All threads can run to their end. In every such run each data line is imported exactly once if and only if each is
due in exactly one thread, and then the imported rows are those of the data lines. -/
theorem import_exactly (file : CsvFile) (hasHeader : Bool) (batchSize threadsCount : ℤ) (processorCount : ℕ)
    (hconv : ∀ r ∈ dataLines file hasHeader, (convertRow types parse (fields r.text)).isSome) :
    (∃ schedule s, Run.exec (step fields types parse) (start V file batchSize threadsCount processorCount) schedule
      = some s ∧ s.complete)
    ∧ ∀ schedule s, Run.exec (step fields types parse) (start V file batchSize threadsCount processorCount) schedule
        = some s → s.complete →
      ((s.imported.map Prod.fst).Perm (dataLines file hasHeader)
        ↔ ExactlyOnce file hasHeader batchSize (effectiveThreads file.length threadsCount processorCount))
      ∧ (ExactlyOnce file hasHeader batchSize (effectiveThreads file.length threadsCount processorCount) →
        (s.imported.map Prod.snd).Perm
          ((dataLines file hasHeader).filterMap fun r => convertRow types parse (fields r.text))) := by
  have htail : ∀ r ∈ (all format file.text).tail, (convertRow types parse (fields r.text)).isSome :=
    fun r hr => hconv r (tail_subset_dataLines file hasHeader hr)
  refine ⟨start_exists_complete fields types parse file batchSize threadsCount processorCount htail, ?_⟩
  intro schedule s hexec hcomplete
  rcases lt_or_ge batchSize 0 with hneg | hsize
  · have hnil := exec_of_neg fields types parse file batchSize threadsCount processorCount hneg hexec
    have hiff : ([] : List (Record Char)).Perm (dataLines file hasHeader)
        ↔ ExactlyOnce file hasHeader batchSize (effectiveThreads file.length threadsCount processorCount) := by
      rw [List.nil_perm]
      exact ⟨.inl, fun h => h.resolve_right fun h' => by omega⟩
    rw [hnil]
    refine ⟨hiff, fun h => ?_⟩
    rw [List.nil_perm.1 (hiff.2 h)]
    exact List.Perm.refl _
  · obtain ⟨hperm, hrows⟩ := exec_complete fields types parse
      (start_inv fields types parse file batchSize threadsCount processorCount hsize htail) schedule hexec hcomplete
    have hiff : (s.imported.map Prod.fst).Perm (dataLines file hasHeader)
        ↔ ExactlyOnce file hasHeader batchSize (effectiveThreads file.length threadsCount processorCount) := by
      rw [← shares_perm_dataLines file hasHeader hsize]
      exact ⟨hperm.symm.trans, hperm.trans⟩
    refine ⟨hiff, fun h => ?_⟩
    rw [rows_eq fields types parse hrows]
    exact (hiff.2 h).filterMap _

end Batch

/-- one column of strings -/
abbrev convertText (text : List Char) : Option (Row (List Char)) := convertRow [()] (fun _ t => some t) [text]

theorem convertText_isSome (text : List Char) : (convertText text).isSome := by
  by_cases h : isNull text <;> simp [convertText, convertRow, h]

/-- a header and two lines; the middle of the file is inside of the first of them -/
def borderInLine : CsvFile := ⟨['a', '\n', '1', '0', '\n', '2'], by decide⟩

theorem import_exactly_borderInLine :
    (∀ r ∈ dataLines borderInLine true, (convertText r.text).isSome)
    ∧ ∃ schedule s, Run.exec (step (fun t => [t]) [()] fun _ t => some t) (start (List Char) borderInLine 65536 2 1)
        schedule = some s ∧ s.complete
      ∧ (s.imported.map Prod.snd).Perm [[some ['1', '0']], [some ['2']]] := by
  have hconv : ∀ r ∈ dataLines borderInLine true, (convertText r.text).isSome := fun r _ => convertText_isSome r.text
  obtain ⟨⟨schedule, s, hexec, hcomplete⟩, hall⟩ :=
    import_exactly (fun t => [t]) [()] (fun _ t => some t) borderInLine true 65536 2 1 hconv
  have honce : ExactlyOnce borderInLine true 65536 2 :=
    .inr ⟨rfl, by decide, (shares_perm borderInLine 2).1 (by decide)⟩
  exact ⟨hconv, schedule, s, hexec, hcomplete, (hall schedule s hexec hcomplete).2 honce⟩

/-! ## Where a line is lost -/

/-- the weights of a text of one-byte characters -/
theorem weight_ascii {w : Char → ℕ} {x : List Char} (h : ∀ c ∈ x, w c = 1) : weight w x = x.length := by
  rw [weight, List.map_congr_left h]
  simp

theorem seek_ascii {s : ℕ} {x : List Char} (h : ∀ c ∈ x, c.utf8Size = 1) :
    seek Char.utf8Size replacement s x = x.drop s := by
  induction x generalizing s with
  | nil => cases s <;> simp [seek]
  | cons c x ih =>
    cases s with
    | zero => simp [seek]
    | succ s =>
      have hc := h c List.mem_cons_self
      rw [seek, if_pos (by omega), hc, Nat.add_sub_cancel, ih fun d hd => h d (List.mem_cons_of_mem c hd),
        List.drop_succ_cons]

theorem codeUnits_ascii {c : Char} (h : c.utf8Size = 1) : codeUnits c = 1 := by
  unfold codeUnits
  rw [if_pos]
  exact UInt32.lt_of_le_of_lt (Char.utf8Size_eq_one_iff.1 h) (by decide)

theorem textStart_ascii (file : CsvFile) (hascii : ∀ c ∈ file.text, c.utf8Size = 1) (position : ℕ) :
    file.textStart position = position := by
  unfold CsvFile.textStart
  rw [if_neg]
  intro hhead
  rw [seek_ascii hascii] at hhead
  have hmem : byteOrderMark ∈ file.text := List.mem_of_mem_drop (List.mem_of_mem_head? hhead)
  exact absurd (hascii _ hmem) (by decide)

theorem takes_ascii (file : CsvFile) (hascii : ∀ c ∈ file.text, c.utf8Size = 1) (threads i : ℕ) {r : Record Char}
    (hr : r ∈ all format file.text) :
    Takes file threads i r ↔ i * chunk file threads + r.upto.length < file.text.length
      ∧ file.text.length - i * chunk file threads ≤ r.behind.length + chunk file threads := by
  obtain ⟨⟨p, -, hp⟩, e, he⟩ := suffix_of_mem_all hr
  have hupto : ∀ c ∈ r.upto, c.utf8Size = 1 := fun c hc => hascii c (by simp [hp, hc])
  have hbehind : ∀ c ∈ r.behind, codeUnits c = 1 := fun c hc => codeUnits_ascii (hupto c (by simp [he, hc]))
  have hstream : ∀ c ∈ file.text.drop (i * chunk file threads), codeUnits c = 1 :=
    fun c hc => codeUnits_ascii (hascii c (List.mem_of_mem_drop hc))
  unfold Takes
  rw [streamFrom_eq, textStart_ascii file hascii, seek_ascii hascii, weight_ascii hstream, weight_ascii hbehind,
    weight_ascii hupto, CsvFile.length, weight_ascii hascii, List.length_drop]

/-- In a file of one-byte characters the line behind `r` is imported exactly once iff no thread starts on the line ending
of `r` and the line begins before what the division of the length leaves over. -/
theorem ascii_exactly_once (file : CsvFile) (hascii : ∀ c ∈ file.text, c.utf8Size = 1) (threads : ℕ) (r : Record Char)
    (hr : r ∈ all format file.text) :
    (∃! i, i < threads ∧ Takes file threads i r)
      ↔ file.text.length - r.behind.length ≤ threads * chunk file threads
        ∧ ∀ j < threads, ¬ (file.text.length - r.upto.length ≤ j * chunk file threads
          ∧ j * chunk file threads < file.text.length - r.behind.length) := by
  obtain ⟨⟨p, hpne, hp⟩, e, he⟩ := suffix_of_mem_all hr
  have hlt : r.upto.length < file.text.length := by
    have := List.length_pos_iff.2 hpne
    rw [hp, List.length_append]
    omega
  have hle : r.behind.length ≤ r.upto.length := by
    rw [he, List.length_append]
    omega
  simp only [takes_ascii file hascii threads _ hr]
  generalize chunk file threads = L
  constructor
  · rintro ⟨i, ⟨hi, hstart, hend⟩, -⟩
    have hnext : (i + 1) * L ≤ threads * L := Nat.mul_le_mul_right L hi
    rw [Nat.add_one_mul] at hnext
    refine ⟨by omega, ?_⟩
    rintro j hj ⟨hfrom, hto⟩
    have hij : i < j := by
      by_contra hge
      have := Nat.mul_le_mul_right L (Nat.le_of_not_lt hge)
      omega
    have := Nat.mul_le_mul_right L hij
    rw [Nat.succ_mul] at this
    omega
  · rintro ⟨hrest, hborder⟩
    have hL : 0 < L := by
      rcases Nat.eq_zero_or_pos L with rfl | h
      · omega
      · exact h
    -- the thread in whose chunk the line begins
    obtain ⟨b, hb⟩ : ∃ b, b + 1 = file.text.length - r.behind.length := ⟨file.text.length - r.behind.length - 1, by omega⟩
    have hdiv := Nat.div_add_mod b L
    have hmod := Nat.mod_lt b hL
    rw [Nat.mul_comm] at hdiv
    have hi : b / L < threads := by
      rw [Nat.div_lt_iff_lt_mul hL]
      omega
    have hfree := hborder (b / L) hi
    refine ⟨b / L, ⟨hi, by omega, by omega⟩, ?_⟩
    rintro i ⟨-, hstart, hend⟩
    refine ((Nat.div_eq_iff hL).2 ⟨?_, ?_⟩).symm
    · omega
    · omega

/-- a header and two lines; the middle of the file is the line ending between them -/
def borderOnLineEnd : CsvFile := ⟨['a', '\n', '1', '\n', '2', '\n'], by decide⟩

/-- The thread in front of the border stops before the second line, and the one behind it takes the line ending for a
blank line and drops the second line. -/
theorem import_loses_line :
    (∀ r ∈ dataLines borderOnLineEnd true, (convertText r.text).isSome)
    ∧ ∃ schedule s, Run.exec (step (fun t => [t]) [()] fun _ t => some t) (start (List Char) borderOnLineEnd 65536 2 1)
        schedule = some s ∧ s.complete
      ∧ ¬ (s.imported.map Prod.snd).Perm ((dataLines borderOnLineEnd true).filterMap fun r => convertText r.text) := by
  have hconv : ∀ r ∈ (all format borderOnLineEnd.text).tail, (convertText r.text).isSome :=
    fun r _ => convertText_isSome r.text
  obtain ⟨schedule, s, hexec, hcomplete⟩ :=
    start_exists_complete (fun t => [t]) [()] (fun _ t => some t) borderOnLineEnd 65536 2 1 hconv
  refine ⟨fun r _ => convertText_isSome r.text, schedule, s, hexec, hcomplete, fun hperm => ?_⟩
  obtain ⟨hshares, -⟩ := exec_complete (fun t => [t]) [()] (fun _ t => some t)
    (start_inv (fun t => [t]) [()] (fun _ t => some t) borderOnLineEnd 65536 2 1 (by decide) hconv)
    schedule hexec hcomplete
  have hone : (shares borderOnLineEnd 2).length = 1 := by decide
  have htwo : ((dataLines borderOnLineEnd true).filterMap fun r => convertText r.text).length = 2 := by decide
  have hlen := hperm.length_eq
  have hlen' := hshares.length_eq
  rw [List.length_map] at hlen hlen'
  change s.imported.length = (shares borderOnLineEnd 2).length at hlen'
  omega

end QikkDB.ImportCSV

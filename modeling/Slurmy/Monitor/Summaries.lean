import Mathlib.Data.Bool.AllAny
import Slurmy.Lib.Counter
import Slurmy.Batch.Call
import Slurmy.Export.Agree
import Slurmy.Monitor.Outcomes

/-!
# The two summaries of a job

The monitor counts the results of a job in two ways.  For the job that is shown in detail `summarize_results` counts
the rows; for all others an awk program of `REMOTE_SNAPSHOT_SCRIPT` counts them on the cluster, and `parse_summary`
reads what it has printed.

* `value`, `corrected`, `entries`, `Tally`, `Awk.output`: the awk program;
* `parseSummary`: what is read of its output;
* `parseRow`, `normalizeSzsResult`, `summarizeResults`: the rows that are shown in detail;
* `PlainRow`: a row with short fields, without separators in them;
* `Deviates`: the rows that only `normalize_szs_result` corrects;
* `summaries_agree_iff`: when both have the same counts; they always have the same outcomes.

Wall times are texts here.
-/

namespace Slurmy
namespace Summaries

open Batch (ResultRow lines tableOf isWordChar)
open TaskPages (ResultRecord lower callOutcome)
open Outcomes (Summary publishedCounts)

/-! ### awk -/

/-- `gsub(/""/, "\"", field)`. -/
def undoubled : Text → Text
  | '"' :: '"' :: t => '"' :: undoubled t
  | c :: t => c :: undoubled t
  | [] => []

/-- `value(field)`. -/
def value (field : Text) : Text :=
  if field.head? = some '"' ∧ field.getLast? = some '"' ∧ 2 ≤ field.length then undoubled field.tail.dropLast
  else field

/-- `value($k)` under `-F,`; the first field has the number 0 here. -/
def column (line : Text) (k : ℕ) : Text := value ((line.splitOn ',').getD k [])

def solverError : Text := "solver-error".toList

def timeLimit : Text := "time-limit".toList

def counterSatisfiable : Text := "counter-satisfiable".toList

def errorNames : List Text :=
  ["error".toList, "oserror".toList, "inputerror".toList, "syntaxerror".toList, "semanticerror".toList,
    "typeerror".toList, "usageerror".toList]

/-- `text + 0`, for a text that goes on with no fraction and no exponent. -/
def leadingNumber (t : Text) : ℕ := number (t.takeWhile Char.isDigit)

/-- `result_status[id]`, after the three corrections. -/
def corrected (status code szs : Text) : Text :=
  let status := if status = solverError ∧ szs = "Timeout".toList then timeLimit else status
  let status := if status = solverError ∧ szs = "CounterSatisfiable".toList then counterSatisfiable else status
  if status = solverError ∧ szs ≠ [] ∧ leadingNumber code < 128 ∧ lower szs ∉ errorNames ∧
      lower szs ≠ "timeout".toList ∧ lower szs ≠ "countersatisfiable".toList then "ok".toList
  else status

/-- The elements of the arrays with one index. -/
structure Entry where
  complete : Text
  status : Text
  szs : Text
  wall : Text
  deriving DecidableEq

/-- One line of a table. -/
def addLine (found : List (Text × Entry)) (line : Text) : List (Text × Entry) :=
  if 3 ≤ (line.splitOn ',').length ∧ isDigits (column line 0) then
    Dict.put found (column line 0)
      ⟨column line 1, corrected (column line 2) (column line 3) (column line 15), column line 15, column line 4⟩
  else found

/-- The arrays after all lines of the files. -/
def entries (files : List Text) : List (Text × Entry) := (files.flatMap lines).foldl addLine []

/-- `suspect_archive`. -/
def suspects (files : List Text) : List (Text × Text) :=
  (files.flatMap lines).foldl (fun found line =>
    if 3 ≤ (line.splitOn ',').length ∧ isDigits (column line 0) ∧ column line 2 = solverError ∧
        column line 3 = "143".toList ∧ column line 15 = [] then
      Dict.put found (column line 0) (column line 14)
    else found) []

/-- The counters of the loop at the end; `walls` are the times that are added up and compared. -/
structure Tally where
  completed : ℤ
  count : List (Text × ℤ)
  outcomes : List (Text × ℤ)
  unresolved : List (Text × ℤ)
  walls : List Text

/-- `/^[0-9]+([.][0-9]+)?$/`. -/
def isWall (t : Text) : Bool :=
  isDigits (before '.' t) && (decide ('.' ∉ t) || isDigits (after '.' t))

def Tally.add (t : Tally) (e : Entry) : Tally :=
  if e.complete = "true".toList then
    { t with
      completed := t.completed + 1
      count := Counter.add t.count e.status 1
      outcomes := Counter.add t.outcomes (e.status ++ '\t' :: e.szs) 1
      walls := if isWall e.wall then t.walls ++ [e.wall] else t.walls }
  else { t with unresolved := Counter.add t.unresolved e.status 1 }

def tally (es : List Entry) : Tally := es.foldl Tally.add ⟨0, [], [], [], []⟩

def tabbed (fields : List Text) : Text := ['\t'].intercalate fields

/-- `%d` of a count. -/
def printed (n : ℤ) : Text := decimal n.toNat

/-- What awk leaves open: the order in which `for (k in array)` goes through an array; and the texts of the sum and of
the maximum of the wall times. -/
structure Awk where
  order : {α : Type} → List α → List α
  perm : ∀ {α : Type} (l : List α), (order l).Perm l
  wallSum : List Text → Text
  wallMax : List Text → Text
  plain_walls : ∀ walls, (wallSum walls).any Lines.isBoundary = false ∧ (wallMax walls).any Lines.isBoundary = false ∧
    '\t' ∉ wallSum walls ∧ '\t' ∉ wallMax walls

/-- The lines that are printed at the end. -/
def Awk.linesOf (awk : Awk) (t : Tally) (candidates : List (Text × Text)) : List Text :=
  [tabbed ["completed".toList, printed t.completed], tabbed ["wall_sum".toList, awk.wallSum t.walls],
    tabbed ["wall_max".toList, awk.wallMax t.walls]] ++
    (awk.order t.outcomes).map (fun e => tabbed ["outcome".toList, e.1, printed e.2]) ++
    (awk.order t.count).map (fun e => tabbed ["status".toList, e.1, printed e.2]) ++
    (awk.order t.unresolved).map (fun e => tabbed ["unresolved".toList, e.1, printed e.2]) ++
    (awk.order candidates).map fun e => tabbed ["candidate".toList, e.1, e.2]

/-- The output, as it comes out of `$(…)` and `printf '%s\n'`. -/
def Awk.output (awk : Awk) (files : List Text) : Text :=
  Lines.unlines (awk.linesOf (tally (awk.order ((entries files).map Prod.snd))) (suspects files))

/-! ### `parse_summary` -/

/-- The counts of a job. -/
structure Counts where
  completed : ℤ
  statusCounts : List (Text × ℤ)
  outcomeCounts : List ((Text × Text) × ℤ)
  unresolvedCounts : List (Text × ℤ)

def parseLine (job : Counts) (line : Text) : Option Counts :=
  match line.splitOn '\t' with
  | [kind, n] =>
      if kind = "completed".toList then (toInt n).map fun n => { job with completed := n } else some job
  | [kind, key, n] =>
      if kind = "status".toList then
        (toInt n).map fun n => { job with statusCounts := Dict.put job.statusCounts key n }
      else if kind = "unresolved".toList then
        (toInt n).map fun n => { job with unresolvedCounts := Dict.put job.unresolvedCounts key n }
      else some job
  | [kind, status, szs, n] =>
      if kind = "outcome".toList then
        (toInt n).map fun n => { job with outcomeCounts := Dict.put job.outcomeCounts (status, szs) n }
      else some job
  | _ => some job

/-- `none` when a count cannot be read. -/
def parseSummary (payload : Text) : Option Counts :=
  (Lines.splitlines payload).foldlM parseLine ⟨0, [], [], []⟩

/-! ### `summarize_results` -/

/-- A row that is long enough, and starts with a number. -/
def parseRow (asFloat : Text → Option ℚ) (found : List (ℕ × ResultRecord)) (fields : Csv.Record) :
    List (ℕ × ResultRecord) :=
  if 15 ≤ fields.length ∧ isDigits (fields.getD 0 []) then
    Dict.put found (number (fields.getD 0 []))
      { complete := decide (lower (fields.getD 1 []) = "true".toList)
        status := fields.getD 2 []
        returnCode := fields.getD 3 []
        wallSeconds := asFloat (fields.getD 4 [])
        cpuSeconds := asFloat (fields.getD 5 [])
        maxMemoryKib := asFloat (fields.getD 10 [])
        archive := fields.getD 14 []
        szsStatus := fields.getD 15 []
        szsOutput := fields.getD 16 [] }
  else found

def parseCsvResults (asFloat : Text → Option ℚ) (payload : Text) : Option (List (ℕ × ResultRecord)) :=
  (Csv.readStream Csv.fieldLimit .init payload).map fun rows => rows.foldl (parseRow asFloat) []

def normalizeSzsResult (result : ResultRecord) : ResultRecord :=
  if result.status ≠ solverError then result
  else
    let szs := lower result.szsStatus
    if szs = "timeout".toList then { result with status := timeLimit }
    else if szs = "countersatisfiable".toList then { result with status := counterSatisfiable }
    else if szs ≠ [] ∧ isDigits result.returnCode ∧ number result.returnCode < 128 ∧ szs ∉ errorNames then
      { result with status := "ok".toList }
    else result

/-- The counts, of results that have been normalized. -/
def summarizeResults (results : List (ℕ × ResultRecord)) : Counts where
  completed := ((results.filter fun p => p.2.complete).length : ℤ)
  statusCounts := results.foldl (fun c p => if p.2.complete then Counter.add c p.2.status 1 else c) []
  outcomeCounts := []
  unresolvedCounts := results.foldl (fun c p => if p.2.complete then c else Counter.add c p.2.status 1) []

/-- The results that are shown in detail. -/
def detailedResults (asFloat : Text → Option ℚ) (files : List Text) : Option (List (ℕ × ResultRecord)) :=
  (parseCsvResults asFloat files.flatten).map (Dict.mapValues normalizeSzsResult)

/-- What `history_outcomes` takes of a job. -/
def Counts.summary (counts : Counts) (results : List (ℕ × ResultRecord)) : Summary where
  taskCount := 0
  outcomeCounts := counts.outcomeCounts.map fun e => (e.1, e.2.toNat)
  results := results
  statusCounts := counts.statusCounts.map fun e => (e.1, e.2.toNat)
  completed := counts.completed
  progress := []
  slurm := []
  submissionOffsets := []

/-! ### Rows -/

def statusOf (r : ResultRow) : Text := r.fields.getD 2 []

def codeOf (r : ResultRow) : Text := r.fields.getD 3 []

def szsOf (r : ResultRow) : Text := r.fields.getD 15 []

/-- A row as `call.sh` writes it: its fields have no separators, the status and the SZS status are words, and the code
is a number. -/
structure PlainRow (r : ResultRow) : Prop where
  fields : ∀ f ∈ r.rest, ',' ∉ f ∧ '"' ∉ f ∧ '\n' ∉ f
  status : ∀ c ∈ statusOf r, isWordChar c = true
  szs : ∀ c ∈ szsOf r, isWordChar c = true
  code : isDigits (codeOf r) = true
  archive : ∀ c ∈ Export.archiveOf r, Lines.isSpace c = false
  short : ∀ f ∈ r.fields, f.length ≤ Csv.fieldLimit

/-- Only `normalize_szs_result` corrects the status. -/
def Deviates (r : ResultRow) : Prop :=
  statusOf r = solverError ∧
    (lower (szsOf r) = "timeout".toList ∧ szsOf r ≠ "Timeout".toList ∨
      lower (szsOf r) = "countersatisfiable".toList ∧ szsOf r ≠ "CounterSatisfiable".toList)

instance (r : ResultRow) : Decidable (Deviates r) := by
  unfold Deviates
  infer_instance

/-! ### Lines of a table -/

theorem line_eq_intercalate {fs : Csv.Record} (hne : fs ≠ []) : Csv.line fs = [','].intercalate (fs.map Csv.quote) := by
  induction fs with
  | nil => exact absurd rfl hne
  | cons f fs ih =>
    cases fs with
    | nil => rw [List.map_singleton, List.intercalate_singleton, Csv.line]
    | cons g fs =>
      rw [Csv.line, ih (List.cons_ne_nil g fs)]
      simp only [List.map_cons, List.intercalate_cons_cons, List.append_assoc, List.singleton_append]

theorem splitOn_line {fs : Csv.Record} (hne : fs ≠ []) (h : ∀ f ∈ fs, ',' ∉ f) :
    (Csv.line fs).splitOn ',' = fs.map Csv.quote := by
  rw [line_eq_intercalate hne, List.splitOn_intercalate ',' _ (by simpa using hne)]
  intro l hl
  obtain ⟨f, hf, rfl⟩ := List.mem_map.mp hl
  exact mt (Csv.mem_quote (by decide)).mp (h f hf)

theorem undoubled_of_not_mem {t : Text} (h : '"' ∉ t) : undoubled t = t := by
  induction t with
  | nil => rfl
  | cons c t ih =>
    rw [List.mem_cons, not_or] at h
    rw [undoubled, ih h.2]
    intro u hc
    exact absurd hc.symm h.1

theorem value_quote {f : Text} (h : '"' ∉ f) : value (Csv.quote f) = f := by
  have hquote : Csv.quote f = '"' :: (f ++ ['"']) := by rw [Csv.quote, Batch.escape_eq_self h]
  unfold value
  rw [hquote, if_pos ⟨rfl, by rw [← List.cons_append, List.getLast?_concat], by simp⟩, List.tail_cons,
    List.dropLast_concat, undoubled_of_not_mem h]

theorem column_line {fs : Csv.Record} (hne : fs ≠ []) (h : ∀ f ∈ fs, ',' ∉ f ∧ '"' ∉ f) (k : ℕ) :
    column (Csv.line fs) k = fs.getD k [] := by
  unfold column
  rw [splitOn_line hne fun f hf => (h f hf).1]
  by_cases hk : k < fs.length
  · rw [List.getD_eq_getElem _ _ (by rwa [List.length_map]), List.getElem_map, List.getD_eq_getElem _ _ hk]
    exact value_quote (h _ (List.getElem_mem hk)).2
  · rw [List.getD_eq_default _ _ (by rw [List.length_map]; omega), List.getD_eq_default _ _ (by omega)]
    rfl

/-! ### Rows -/

section Rows

variable {r : ResultRow} {rows : List ResultRow} {tables : List (List ResultRow)}

theorem PlainRow.fields_plain (h : PlainRow r) : ∀ f ∈ r.fields, ',' ∉ f ∧ '"' ∉ f ∧ '\n' ∉ f := by
  intro f hf
  rcases List.mem_cons.mp hf with rfl | hf
  · exact ⟨Batch.mem_of_mem_decimal rfl, Batch.mem_of_mem_decimal rfl, Batch.mem_of_mem_decimal rfl⟩
  · rcases List.mem_cons.mp hf with rfl | hf
    · exact Batch.not_mem_completeText r.complete
    · exact h.fields f hf

theorem PlainRow.column (h : PlainRow r) (k : ℕ) : column (Csv.line r.fields) k = r.fields.getD k [] :=
  column_line (Export.fields_ne_nil r) (fun f hf => ⟨(h.fields_plain f hf).1, (h.fields_plain f hf).2.1⟩) k

/-- The elements of the arrays for a row. -/
def entryOf (r : ResultRow) : Entry :=
  ⟨Batch.completeText r.complete, corrected (statusOf r) (codeOf r) (szsOf r), szsOf r, r.fields.getD 4 []⟩

theorem addLine_row (h : PlainRow r) (found : List (Text × Entry)) :
    addLine found (Csv.line r.fields) = Dict.put found (decimal r.taskId) (entryOf r) := by
  have hlength : 3 ≤ ((Csv.line r.fields).splitOn ',').length := by
    rw [splitOn_line (Export.fields_ne_nil r) fun f hf => (h.fields_plain f hf).1, List.length_map,
      Export.length_fields]
    omega
  have hfirst : r.fields.getD 0 [] = decimal r.taskId := rfl
  unfold addLine
  rw [h.column, h.column, h.column, h.column, h.column, h.column, hfirst, if_pos ⟨hlength, isDigits_decimal _⟩]
  rfl

theorem addLine_header (found : List (Text × Entry)) : addLine found (Csv.line Batch.resultColumns) = found := by
  have hfirst : column (Csv.line Batch.resultColumns) 0 = "task_id".toList := by decide +kernel
  unfold addLine
  rw [hfirst, if_neg]
  rintro ⟨-, h⟩
  exact absurd h (by decide)

theorem lines_tableOf (h : ∀ r ∈ rows, PlainRow r) :
    lines (tableOf rows) = Csv.line Batch.resultColumns :: rows.map fun r => Csv.line r.fields := by
  rw [Batch.tableOf_eq_flatMap, Batch.lines_flatMap]
  intro l hl
  rcases List.mem_cons.mp hl with rfl | hl
  · exact Csv.newline_not_mem_line (by decide)
  · obtain ⟨r, hr, rfl⟩ := List.mem_map.mp hl
    exact Csv.newline_not_mem_line fun f hf => ((h r hr).fields_plain f hf).2.2

/-- All lines of the tables: the headers, and the rows. -/
theorem foldl_lines {α : Type} (add : α → Text → α) (addRow : α → ResultRow → α)
    (hheader : ∀ a, add a (Csv.line Batch.resultColumns) = a)
    (hrow : ∀ a r, PlainRow r → add a (Csv.line r.fields) = addRow a r)
    (h : ∀ rows ∈ tables, ∀ r ∈ rows, PlainRow r) (a : α) :
    ((tables.map tableOf).flatMap lines).foldl add a = tables.flatten.foldl addRow a := by
  have hrows (rows : List ResultRow) (hrows : ∀ r ∈ rows, PlainRow r) (a : α) :
      (rows.map fun r => Csv.line r.fields).foldl add a = rows.foldl addRow a := by
    induction rows generalizing a with
    | nil => rfl
    | cons r rows ih =>
      rw [List.forall_mem_cons] at hrows
      rw [List.map_cons, List.foldl_cons, List.foldl_cons, hrow a r hrows.1, ih hrows.2]
  induction tables generalizing a with
  | nil => rfl
  | cons rows tables ih =>
    rw [List.forall_mem_cons] at h
    rw [List.map_cons, List.flatMap_cons, List.foldl_append, lines_tableOf h.1, List.foldl_cons, hheader,
      hrows rows h.1, ih h.2, List.flatten_cons, List.foldl_append]

theorem entries_tables (h : ∀ rows ∈ tables, ∀ r ∈ rows, PlainRow r) :
    entries (tables.map tableOf) =
      (Export.latestRows tables.flatten).map fun p => (decimal p.1, entryOf p.2) := by
  have hfold : ∀ (rows : List ResultRow) (found : List (ℕ × ResultRow)),
      rows.foldl (fun found r => Dict.put found (decimal r.taskId) (entryOf r))
        (found.map fun p => (decimal p.1, entryOf p.2)) =
      (rows.foldl (fun found r => Dict.put found r.taskId r) found).map fun p => (decimal p.1, entryOf p.2) := by
    intro rows
    induction rows with
    | nil => exact fun _ => rfl
    | cons r rows ih =>
      intro found
      rw [List.foldl_cons, List.foldl_cons, ← Dict.map_put (fun _ _ => decimal_injective), ih]
  unfold entries
  rw [foldl_lines addLine _ addLine_header (fun a r hr => addLine_row hr a) h]
  exact hfold tables.flatten []

/-- The result of a row. -/
def recordOf (asFloat : Text → Option ℚ) (r : ResultRow) : ResultRecord where
  complete := r.complete
  status := statusOf r
  returnCode := codeOf r
  wallSeconds := asFloat (r.fields.getD 4 [])
  cpuSeconds := asFloat (r.fields.getD 5 [])
  maxMemoryKib := asFloat (r.fields.getD 10 [])
  archive := Export.archiveOf r
  szsStatus := szsOf r
  szsOutput := r.fields.getD 16 []

theorem parseRow_row (asFloat : Text → Option ℚ) (found : List (ℕ × ResultRecord)) (r : ResultRow) :
    parseRow asFloat found r.fields = Dict.put found r.taskId (recordOf asFloat r) := by
  have hfirst : r.fields.getD 0 [] = decimal r.taskId := rfl
  have hcomplete : decide (lower (r.fields.getD 1 []) = "true".toList) = r.complete := by
    show decide (lower (Batch.completeText r.complete) = "true".toList) = r.complete
    cases r.complete <;> decide
  unfold parseRow
  rw [hfirst, hcomplete, if_pos ⟨by rw [Export.length_fields]; omega, isDigits_decimal _⟩, number_decimal]
  rfl

/-- The records of some tables. -/
def recordsOf (tables : List (List ResultRow)) : List Csv.Record :=
  tables.flatMap fun rows => Batch.resultColumns :: rows.map ResultRow.fields

theorem flatten_tables (tables : List (List ResultRow)) : (tables.map tableOf).flatten = (recordsOf tables).flatMap Csv.row := by
  induction tables with
  | nil => rfl
  | cons rows tables ih =>
    have hrecords : recordsOf (rows :: tables) = (Batch.resultColumns :: rows.map ResultRow.fields) ++ recordsOf tables := rfl
    rw [List.map_cons, List.flatten_cons, ih, hrecords, List.flatMap_append, Export.tableOf_eq]

theorem recordsOf_ne_nil (tables : List (List ResultRow)) : ∀ fs ∈ recordsOf tables, fs ≠ [] := by
  intro fs hfs
  obtain ⟨rows, -, hfs⟩ := List.mem_flatMap.mp hfs
  exact Export.records_ne_nil rows fs hfs

/-- What is made of the rows that are read. -/
theorem foldl_parseRow (asFloat : Text → Option ℚ) (tables : List (List ResultRow)) :
    Dict.mapValues normalizeSzsResult ((recordsOf tables).foldl (parseRow asFloat) []) =
      Dict.mapValues (fun r => normalizeSzsResult (recordOf asFloat r)) (Export.latestRows tables.flatten) := by
  have hrows : ∀ (rows : List ResultRow) (found : List (ℕ × ResultRow)),
      (rows.map ResultRow.fields).foldl (parseRow asFloat) (Dict.mapValues (recordOf asFloat) found) =
        Dict.mapValues (recordOf asFloat) (rows.foldl (fun found r => Dict.put found r.taskId r) found) := by
    intro rows
    induction rows with
    | nil => exact fun _ => rfl
    | cons r rows ih =>
      intro found
      rw [List.map_cons, List.foldl_cons, List.foldl_cons, parseRow_row, ← Dict.mapValues_put, ih]
  have hheader (found : List (ℕ × ResultRecord)) : parseRow asFloat found Batch.resultColumns = found := if_neg (by decide)
  have hfold : ∀ (tables : List (List ResultRow)) (found : List (ℕ × ResultRow)),
      (recordsOf tables).foldl (parseRow asFloat) (Dict.mapValues (recordOf asFloat) found) =
      Dict.mapValues (recordOf asFloat) (tables.flatten.foldl (fun found r => Dict.put found r.taskId r) found) := by
    intro tables
    induction tables with
    | nil => exact fun _ => rfl
    | cons rows tables ih =>
      intro found
      rw [recordsOf, List.flatMap_cons, List.foldl_append, List.foldl_cons, hheader, hrows, ← recordsOf, ih, List.flatten_cons,
        List.foldl_append]
  have hall := hfold tables []
  rw [show Dict.mapValues (recordOf asFloat) [] = [] from rfl] at hall
  rw [hall, Dict.mapValues, Dict.mapValues, List.map_map]
  rfl

theorem detailedResults_tables (asFloat : Text → Option ℚ) {tables : List (List ResultRow)}
    (hshort : ∀ rows ∈ tables, ∀ r ∈ rows, ∀ f ∈ r.fields, f.length ≤ Csv.fieldLimit) :
    detailedResults asFloat (tables.map tableOf) =
      some (Dict.mapValues (fun r => normalizeSzsResult (recordOf asFloat r)) (Export.latestRows tables.flatten)) := by
  unfold detailedResults parseCsvResults
  rw [flatten_tables, Csv.readStream_rows (recordsOf_ne_nil tables), Option.map_some, Option.map_some, foldl_parseRow]
  intro fs hfs
  obtain ⟨rows, hrows, hfs⟩ := List.mem_flatMap.mp hfs
  rcases List.mem_cons.mp hfs with rfl | hfs
  · decide
  · obtain ⟨r, hr, rfl⟩ := List.mem_map.mp hfs
    exact hshort rows hrows r hr

/-- What is read at all. -/
theorem detailedResults_eq {asFloat : Text → Option ℚ} {tables : List (List ResultRow)}
    {results : List (ℕ × ResultRecord)} (h : detailedResults asFloat (tables.map tableOf) = some results) :
    results = Dict.mapValues (fun r => normalizeSzsResult (recordOf asFloat r)) (Export.latestRows tables.flatten) := by
  unfold detailedResults parseCsvResults at h
  rw [flatten_tables] at h
  obtain ⟨found, hfound, rfl⟩ := Option.map_eq_some_iff.mp h
  obtain ⟨records, hrecords, rfl⟩ := Option.map_eq_some_iff.mp hfound
  rw [(Csv.rows_of_readLines Csv.endsRows_stream (recordsOf_ne_nil tables) hrecords).1, foldl_parseRow]

end Rows

/-! ### Words -/

theorem isSpace_of_isWordChar {c : Char} (h : isWordChar c = true) : Lines.isSpace c = false := by
  rw [Bool.eq_false_iff]
  intro hspace
  have hmem := of_decide_eq_true hspace
  have hchar (n : ℕ) (hn : c.toNat = n) : c = Char.ofNat n := by rw [← hn, Char.ofNat_toNat]
  simp only [List.mem_cons, List.not_mem_nil, or_false] at hmem
  rcases hmem with hn | hn | hn | hn | hn | hn | hn | hn | hn | hn | hn | hn | hn | hn | hn | hn | hn | hn | hn | hn |
    hn | hn | hn | hn | hn | hn | hn | hn | hn <;>
  · rw [hchar _ hn] at h
    exact absurd h (by decide)

theorem isBoundary_of_isSpace {c : Char} (h : Lines.isSpace c = false) : Lines.isBoundary c = false := by
  rw [Bool.eq_false_iff] at h ⊢
  intro hboundary
  have hmem := of_decide_eq_true hboundary
  refine h (decide_eq_true ?_)
  simp only [List.mem_cons, List.not_mem_nil, or_false] at hmem ⊢
  omega

/-- A text that is neither split into lines nor into fields. -/
structure Solid (t : Text) : Prop where
  line : t.any Lines.isBoundary = false
  field : '\t' ∉ t

theorem solid_of_isSpace {t : Text} (h : ∀ c ∈ t, Lines.isSpace c = false) : Solid t where
  line := by
    rw [List.any_eq_false]
    exact fun c hc => Bool.eq_false_iff.mp (isBoundary_of_isSpace (h c hc))
  field hmem := absurd (h '\t' hmem) (by decide)

theorem solid_word {t : Text} (h : ∀ c ∈ t, isWordChar c = true) : Solid t :=
  solid_of_isSpace fun c hc => isSpace_of_isWordChar (h c hc)

theorem solid_decimal (n : ℕ) : Solid (decimal n) :=
  solid_word fun c hc => by
    have hdigit := isDigit_of_mem_decimal hc
    simp [isWordChar, Char.isAlphanum, hdigit]

theorem strip_word {t : Text} (h : ∀ c ∈ t, isWordChar c = true) : Lines.strip t = t :=
  Lines.strip_of_ends (fun c hc => isSpace_of_isWordChar (h c (List.mem_of_mem_head? hc)))
    fun c hc => isSpace_of_isWordChar (h c (List.mem_of_mem_getLast? hc))

/-! ### The corrections -/

section Corrections

variable {r : ResultRow} (asFloat : Text → Option ℚ)

theorem leadingNumber_of_isDigits {t : Text} (h : isDigits t = true) : leadingNumber t = number t := by
  rw [isDigits, Bool.and_eq_true] at h
  rw [leadingNumber, List.takeWhile_eq_self_iff.mpr (List.all_eq_true.mp h.2)]

theorem corrected_of_ne {status : Text} (h : status ≠ solverError) (code szs : Text) : corrected status code szs = status := by
  simp [corrected, h]

/-- The corrections of awk, for a row that is corrected. -/
theorem corrected_solverError (code szs : Text) : corrected solverError code szs =
    if szs = "Timeout".toList then timeLimit
    else if szs = "CounterSatisfiable".toList then counterSatisfiable
    else if szs ≠ [] ∧ leadingNumber code < 128 ∧ lower szs ∉ errorNames ∧ lower szs ≠ "timeout".toList ∧
        lower szs ≠ "countersatisfiable".toList then "ok".toList
    else solverError := by
  have htime : timeLimit ≠ solverError := by decide
  have hcounter : counterSatisfiable ≠ solverError := by decide
  have hfirst : (if solverError = solverError ∧ szs = "Timeout".toList then timeLimit else solverError) =
      if szs = "Timeout".toList then timeLimit else solverError := if_congr (and_iff_right rfl) rfl rfl
  unfold corrected
  dsimp only
  rw [hfirst]
  by_cases h : szs = "Timeout".toList
  · have hcounter' : ¬ (timeLimit = solverError ∧ szs = "CounterSatisfiable".toList) := fun h => htime h.1
    rw [if_pos h, if_neg hcounter', if_neg fun h => htime h.1, if_pos h]
  · rw [if_neg h, if_neg h]
    by_cases h' : szs = "CounterSatisfiable".toList
    · have hboth : solverError = solverError ∧ szs = "CounterSatisfiable".toList := ⟨rfl, h'⟩
      rw [if_pos hboth, if_neg fun h => hcounter h.1, if_pos h']
    · have hnot : ¬ (solverError = solverError ∧ szs = "CounterSatisfiable".toList) := fun h => h' h.2
      rw [if_neg hnot, if_neg h']
      exact if_congr (and_iff_right rfl) rfl rfl

/-- The corrections of `normalize_szs_result`. -/
theorem status_normalized (r : ResultRow) (h : statusOf r = solverError) :
    (normalizeSzsResult (recordOf asFloat r)).status =
      if lower (szsOf r) = "timeout".toList then timeLimit
      else if lower (szsOf r) = "countersatisfiable".toList then counterSatisfiable
      else if lower (szsOf r) ≠ [] ∧ isDigits (codeOf r) ∧ number (codeOf r) < 128 ∧ lower (szsOf r) ∉ errorNames then
        "ok".toList
      else solverError := by
  have hstatus : ¬ (recordOf asFloat r).status ≠ solverError := not_not.mpr h
  have hszs : (recordOf asFloat r).szsStatus = szsOf r := rfl
  have hcode : (recordOf asFloat r).returnCode = codeOf r := rfl
  unfold normalizeSzsResult
  rw [if_neg hstatus, hszs, hcode]
  dsimp only
  split_ifs <;> first | rfl | exact h

theorem status_eq (h : PlainRow r) (hr : ¬ Deviates r) :
    (normalizeSzsResult (recordOf asFloat r)).status = corrected (statusOf r) (codeOf r) (szsOf r) := by
  by_cases hstatus : statusOf r = solverError
  · have hlower : lower (szsOf r) ≠ [] ↔ szsOf r ≠ [] := not_congr List.map_eq_nil_iff
    rw [status_normalized asFloat r hstatus, hstatus, corrected_solverError, leadingNumber_of_isDigits h.code]
    by_cases htime : lower (szsOf r) = "timeout".toList
    · have hexact : szsOf r = "Timeout".toList := by
        by_contra hne
        exact hr ⟨hstatus, .inl ⟨htime, hne⟩⟩
      rw [if_pos htime, if_pos hexact]
    · have htime' : szsOf r ≠ "Timeout".toList := fun heq => htime (by rw [heq]; decide)
      rw [if_neg htime, if_neg htime']
      by_cases hcounter : lower (szsOf r) = "countersatisfiable".toList
      · have hexact : szsOf r = "CounterSatisfiable".toList := by
          by_contra hne
          exact hr ⟨hstatus, .inr ⟨hcounter, hne⟩⟩
        rw [if_pos hcounter, if_pos hexact]
      · have hcounter' : szsOf r ≠ "CounterSatisfiable".toList := fun heq => hcounter (by rw [heq]; decide)
        rw [if_neg hcounter, if_neg hcounter']
        refine if_congr ?_ rfl rfl
        rw [hlower, and_iff_right h.code]
        exact and_congr_right fun _ => and_congr_right fun _ => (and_iff_left ⟨htime, hcounter⟩).symm
  · have hstatus' : (recordOf asFloat r).status ≠ solverError := hstatus
    rw [corrected_of_ne hstatus, normalizeSzsResult, if_pos hstatus']
    rfl

/-- awk leaves the status as it is. -/
theorem corrected_of_deviates (hr : Deviates r) : corrected (statusOf r) (codeOf r) (szsOf r) = solverError := by
  obtain ⟨hstatus, hszs⟩ := hr
  have hne : szsOf r ≠ "Timeout".toList ∧ szsOf r ≠ "CounterSatisfiable".toList := by
    rcases hszs with ⟨hlower, hne⟩ | ⟨hlower, hne⟩
    · exact ⟨hne, fun heq => absurd hlower (by rw [heq]; decide)⟩
    · exact ⟨fun heq => absurd hlower (by rw [heq]; decide), hne⟩
  rw [hstatus, corrected_solverError, if_neg hne.1, if_neg hne.2, if_neg]
  rintro ⟨-, -, -, htime, hcounter⟩
  exact hszs.elim (fun h => htime h.1) fun h => hcounter h.1

theorem normalized_of_deviates (hr : Deviates r) :
    (normalizeSzsResult (recordOf asFloat r)).status ≠ solverError := by
  obtain ⟨hstatus, hszs⟩ := hr
  rw [status_normalized asFloat r hstatus]
  rcases hszs with ⟨hlower, -⟩ | ⟨hlower, -⟩
  · rw [if_pos hlower]
    decide
  · rw [if_neg (by rw [hlower]; decide), if_pos hlower]
    decide

theorem szsStatus_normalized (r : ResultRow) : (normalizeSzsResult (recordOf asFloat r)).szsStatus = szsOf r := by
  unfold normalizeSzsResult
  dsimp only
  split_ifs <;> rfl

theorem complete_normalized (r : ResultRow) : (normalizeSzsResult (recordOf asFloat r)).complete = r.complete := by
  unfold normalizeSzsResult
  dsimp only
  split_ifs <;> rfl

/-- The outcome is the same, whatever the corrections do. -/
theorem callOutcome_eq {casefold : Text → Text}
    (hcasefold : ∀ t : Text, (∀ c ∈ t, isWordChar c = true) → casefold t = lower t) (h : PlainRow r) :
    callOutcome casefold (some (normalizeSzsResult (recordOf asFloat r))) =
      callOutcome casefold (some (Outcomes.compactResult (corrected (statusOf r) (codeOf r) (szsOf r)) (szsOf r))) := by
  have hdepends (a b : ResultRecord) (hstatus : a.status = b.status) (hszs : a.szsStatus = b.szsStatus) :
      callOutcome casefold (some a) = callOutcome casefold (some b) := by
    dsimp only [callOutcome]
    rw [hstatus, hszs]
  by_cases hr : Deviates r
  · have hstrip : Lines.strip (szsOf r) = szsOf r := strip_word h.szs
    have hne : szsOf r ≠ [] := by
      intro hnil
      have hszs := hr.2
      rw [hnil] at hszs
      exact absurd hszs (by decide)
    have hnot : casefold (szsOf r) ∉ errorNames := by
      rw [hcasefold _ h.szs]
      rcases hr.2 with ⟨hlower, -⟩ | ⟨hlower, -⟩ <;> rw [hlower] <;> decide
    have hsame (a : ResultRecord) (hszs : a.szsStatus = szsOf r) :
        callOutcome casefold (some a) = (szsOf r, "solver".toList) := by
      dsimp only [callOutcome]
      rw [hszs, hstrip, if_neg fun h => hnot h.2, if_pos hne]
    rw [hsame _ (szsStatus_normalized asFloat r), hsame (Outcomes.compactResult _ (szsOf r)) rfl]
  · exact hdepends _ _ (status_eq asFloat h hr) (szsStatus_normalized asFloat r)

end Corrections

theorem corrected_word {r : ResultRow} (h : PlainRow r) :
    ∀ c ∈ corrected (statusOf r) (codeOf r) (szsOf r), isWordChar c = true := by
  by_cases hstatus : statusOf r = solverError
  · rw [hstatus, corrected_solverError]
    split_ifs <;> exact List.all_eq_true.mp (by decide)
  · rw [corrected_of_ne hstatus]
    exact h.status

/-! ### The loop at the end -/

section Tallies

def Entry.isComplete (e : Entry) : Bool := decide (e.complete = "true".toList)

theorem foldl_tally (es : List Entry) (t : Tally) :
    (es.foldl Tally.add t).completed = t.completed + ((es.filter Entry.isComplete).length : ℤ) ∧
      (es.foldl Tally.add t).count =
        (es.filter Entry.isComplete).foldl (fun c e => Counter.add c e.status 1) t.count ∧
      (es.foldl Tally.add t).outcomes =
        (es.filter Entry.isComplete).foldl (fun c e => Counter.add c (e.status ++ '\t' :: e.szs) 1) t.outcomes ∧
      (es.foldl Tally.add t).unresolved =
        (es.filter fun e => !e.isComplete).foldl (fun c e => Counter.add c e.status 1) t.unresolved := by
  induction es generalizing t with
  | nil => exact ⟨(add_zero _).symm, rfl, rfl, rfl⟩
  | cons e es ih =>
    obtain ⟨hcompleted, hcount, houtcomes, hunresolved⟩ := ih (t.add e)
    rw [List.foldl_cons, hcompleted, hcount, houtcomes, hunresolved]
    by_cases h : e.complete = "true".toList
    · have hadd : t.add e = { t with
          completed := t.completed + 1
          count := Counter.add t.count e.status 1
          outcomes := Counter.add t.outcomes (e.status ++ '\t' :: e.szs) 1
          walls := if isWall e.wall then t.walls ++ [e.wall] else t.walls } := if_pos h
      have hcomplete : e.isComplete = true := decide_eq_true h
      rw [hadd, List.filter_cons_of_pos hcomplete, List.filter_cons_of_neg (by simp [hcomplete]), List.length_cons]
      refine ⟨?_, rfl, rfl, rfl⟩
      push_cast
      ring
    · have hadd : t.add e = { t with unresolved := Counter.add t.unresolved e.status 1 } := if_neg h
      have hcomplete : e.isComplete = false := decide_eq_false h
      rw [hadd, List.filter_cons_of_neg (by simp [hcomplete]), List.filter_cons_of_pos (by simp [hcomplete])]
      exact ⟨rfl, rfl, rfl, rfl⟩

end Tallies

/-! ### The lines come back -/

section Parse

variable {job : Counts} {key : Text} {n : ℤ}

theorem splitOn_tabbed {fields : List Text} (hne : fields ≠ []) (h : ∀ f ∈ fields, '\t' ∉ f) :
    (tabbed fields).splitOn '\t' = fields := List.splitOn_intercalate '\t' h hne

theorem any_tabbed {fields : List Text} (h : ∀ f ∈ fields, f.any Lines.isBoundary = false) :
    (tabbed fields).any Lines.isBoundary = false := by
  unfold tabbed
  induction fields with
  | nil => rfl
  | cons f fields ih =>
    rw [List.forall_mem_cons] at h
    cases fields with
    | nil => rw [List.intercalate_singleton, h.1]
    | cons g fields =>
      rw [List.intercalate_cons_cons, List.any_append, List.any_append, h.1, ih h.2]
      decide

theorem solid_printed (n : ℤ) : Solid (printed n) := solid_decimal n.toNat

theorem toInt_printed (hn : 0 ≤ n) : toInt (printed n) = some n := by
  rw [printed, toInt_decimal, Int.toNat_of_nonneg hn]

theorem parseLine_completed (hn : 0 ≤ n) :
    parseLine job (tabbed ["completed".toList, printed n]) = some { job with completed := n } := by
  have hsplit : (tabbed ["completed".toList, printed n]).splitOn '\t' = ["completed".toList, printed n] :=
    splitOn_tabbed (List.cons_ne_nil _ _) (by simp [(solid_printed n).field])
  unfold parseLine
  rw [hsplit]
  dsimp only
  rw [if_pos rfl, toInt_printed hn, Option.map_some]

theorem parseLine_wall {kind text : Text} (hkind : kind = "wall_sum".toList ∨ kind = "wall_max".toList)
    (htext : '\t' ∉ text) : parseLine job (tabbed [kind, text]) = some job := by
  have hsplit : (tabbed [kind, text]).splitOn '\t' = [kind, text] := by
    refine splitOn_tabbed (List.cons_ne_nil _ _) fun f hf => ?_
    rcases List.mem_cons.mp hf with rfl | hf
    · rcases hkind with rfl | rfl <;> decide
    · rwa [List.mem_singleton.mp hf]
  unfold parseLine
  rw [hsplit]
  dsimp only
  rw [if_neg]
  rcases hkind with rfl | rfl <;> decide

theorem parseLine_status (hkey : '\t' ∉ key) (hn : 0 ≤ n) :
    parseLine job (tabbed ["status".toList, key, printed n]) =
      some { job with statusCounts := Dict.put job.statusCounts key n } := by
  have hsplit : (tabbed ["status".toList, key, printed n]).splitOn '\t' = ["status".toList, key, printed n] :=
    splitOn_tabbed (List.cons_ne_nil _ _) (by simp [(solid_printed n).field, hkey])
  unfold parseLine
  rw [hsplit]
  dsimp only
  rw [if_pos rfl, toInt_printed hn, Option.map_some]

theorem parseLine_unresolved (hkey : '\t' ∉ key) (hn : 0 ≤ n) :
    parseLine job (tabbed ["unresolved".toList, key, printed n]) =
      some { job with unresolvedCounts := Dict.put job.unresolvedCounts key n } := by
  have hsplit : (tabbed ["unresolved".toList, key, printed n]).splitOn '\t' =
      ["unresolved".toList, key, printed n] :=
    splitOn_tabbed (List.cons_ne_nil _ _) (by simp [(solid_printed n).field, hkey])
  unfold parseLine
  rw [hsplit]
  dsimp only
  rw [if_neg (by decide), if_pos rfl, toInt_printed hn, Option.map_some]

theorem parseLine_outcome {szs : Text} (hkey : '\t' ∉ key) (hszs : '\t' ∉ szs) (hn : 0 ≤ n) :
    parseLine job (tabbed ["outcome".toList, key ++ '\t' :: szs, printed n]) =
      some { job with outcomeCounts := Dict.put job.outcomeCounts (key, szs) n } := by
  have hfields : tabbed ["outcome".toList, key ++ '\t' :: szs, printed n] =
      tabbed ["outcome".toList, key, szs, printed n] := by
    simp [tabbed, List.intercalate_cons_cons]
  have hsplit : (tabbed ["outcome".toList, key, szs, printed n]).splitOn '\t' =
      ["outcome".toList, key, szs, printed n] :=
    splitOn_tabbed (List.cons_ne_nil _ _) (by simp [(solid_printed n).field, hkey, hszs])
  unfold parseLine
  rw [hfields, hsplit]
  dsimp only
  rw [if_pos rfl, toInt_printed hn, Option.map_some]

theorem parseLine_candidate {archive : Text} (hkey : '\t' ∉ key) (harchive : '\t' ∉ archive) :
    parseLine job (tabbed ["candidate".toList, key, archive]) = some job := by
  have hsplit : (tabbed ["candidate".toList, key, archive]).splitOn '\t' = ["candidate".toList, key, archive] :=
    splitOn_tabbed (List.cons_ne_nil _ _) (by simp [hkey, harchive])
  unfold parseLine
  rw [hsplit]
  dsimp only
  rw [if_neg (by decide), if_neg (by decide)]

/-- Lines of one kind. -/
theorem foldlM_lines {α : Type} (items : List α) (text : α → Text) (put : Counts → α → Counts)
    (h : ∀ e ∈ items, ∀ job, parseLine job (text e) = some (put job e)) (job : Counts) :
    (items.map text).foldlM parseLine job = some (items.foldl put job) := by
  induction items generalizing job with
  | nil => rfl
  | cons e items ih =>
    rw [List.forall_mem_cons] at h
    rw [List.map_cons, List.foldlM_cons, h.1, List.foldl_cons]
    exact ih h.2 (put job e)

end Parse

/-! ### The output is read back -/

section Output

variable {tables : List (List ResultRow)}

/-- The status and the SZS status of a line `outcome`. -/
def splitKey (key : Text) : Text × Text := (before '\t' key, after '\t' key)

theorem foldl_status (items : List (Text × ℤ)) (job : Counts) :
    items.foldl (fun job e => { job with statusCounts := Dict.put job.statusCounts e.1 e.2 }) job =
      { job with statusCounts := Dict.putAll job.statusCounts items } := by
  induction items generalizing job with
  | nil => rfl
  | cons e items ih => exact ih _

theorem foldl_unresolved (items : List (Text × ℤ)) (job : Counts) :
    items.foldl (fun job e => { job with unresolvedCounts := Dict.put job.unresolvedCounts e.1 e.2 }) job =
      { job with unresolvedCounts := Dict.putAll job.unresolvedCounts items } := by
  induction items generalizing job with
  | nil => rfl
  | cons e items ih => exact ih _

theorem foldl_outcomes (items : List (Text × ℤ)) (job : Counts) :
    items.foldl (fun job e => { job with outcomeCounts := Dict.put job.outcomeCounts (splitKey e.1) e.2 }) job =
      { job with outcomeCounts := Dict.putAll job.outcomeCounts (items.map fun e => (splitKey e.1, e.2)) } := by
  induction items generalizing job with
  | nil => rfl
  | cons e items ih => exact ih _

/-- The rows that count. -/
theorem plain_latest (h : ∀ rows ∈ tables, ∀ r ∈ rows, PlainRow r) : ∀ p ∈ Export.latestRows tables.flatten, PlainRow p.2 := by
  have hfold : ∀ (rows : List ResultRow) (found : List (ℕ × ResultRow)), (∀ r ∈ rows, PlainRow r) →
      (∀ p ∈ found, PlainRow p.2) → ∀ p ∈ rows.foldl (fun found r => Dict.put found r.taskId r) found, PlainRow p.2 := by
    intro rows
    induction rows with
    | nil => exact fun _ _ h => h
    | cons r rows ih =>
      intro found hrows hfound
      rw [List.forall_mem_cons] at hrows
      refine ih _ hrows.2 fun p hp => ?_
      rcases Dict.mem_put hp with hp | rfl
      · exact hfound p hp
      · exact hrows.1
  refine hfold _ [] (fun r hr => ?_) fun p hp => absurd hp List.not_mem_nil
  obtain ⟨rows, hrows, hr⟩ := List.mem_flatten.mp hr
  exact h rows hrows r hr

/-- The entries of awk are those of the rows that count. -/
theorem entry_of_mem (awk : Awk) (h : ∀ rows ∈ tables, ∀ r ∈ rows, PlainRow r) {e : Entry}
    (he : e ∈ awk.order ((entries (tables.map tableOf)).map Prod.snd)) : ∃ r, PlainRow r ∧ e = entryOf r := by
  have hmem := (awk.perm _).subset he
  rw [entries_tables h, List.map_map] at hmem
  obtain ⟨p, hp, rfl⟩ := List.mem_map.mp hmem
  exact ⟨p.2, plain_latest h p hp, rfl⟩

theorem solid_suspects (h : ∀ rows ∈ tables, ∀ r ∈ rows, PlainRow r) :
    ∀ e ∈ suspects (tables.map tableOf), Solid e.1 ∧ Solid e.2 := by
  have hfold : ∀ (rows : List ResultRow) (found : List (Text × Text)), (∀ r ∈ rows, PlainRow r) →
      (∀ e ∈ found, Solid e.1 ∧ Solid e.2) →
      ∀ e ∈ rows.foldl (fun found r => if statusOf r = solverError ∧ codeOf r = "143".toList ∧ szsOf r = [] then
        Dict.put found (decimal r.taskId) (Export.archiveOf r) else found) found, Solid e.1 ∧ Solid e.2 := by
    intro rows
    induction rows with
    | nil => exact fun _ _ h => h
    | cons r rows ih =>
      intro found hrows hfound
      rw [List.forall_mem_cons] at hrows
      refine ih _ hrows.2 fun e he => ?_
      dsimp only at he
      split_ifs at he
      · rcases Dict.mem_put he with he | rfl
        · exact hfound e he
        · exact ⟨solid_decimal _, solid_of_isSpace hrows.1.archive⟩
      · exact hfound e he
  -- a row of a table
  have hrow (found : List (Text × Text)) (r : ResultRow) (hr : PlainRow r) :
      (if 3 ≤ ((Csv.line r.fields).splitOn ',').length ∧ isDigits (column (Csv.line r.fields) 0) ∧
          column (Csv.line r.fields) 2 = solverError ∧ column (Csv.line r.fields) 3 = "143".toList ∧
          column (Csv.line r.fields) 15 = [] then
        Dict.put found (column (Csv.line r.fields) 0) (column (Csv.line r.fields) 14)
      else found) =
      if statusOf r = solverError ∧ codeOf r = "143".toList ∧ szsOf r = [] then
        Dict.put found (decimal r.taskId) (Export.archiveOf r) else found := by
    have hlength : 3 ≤ ((Csv.line r.fields).splitOn ',').length := by
      rw [splitOn_line (Export.fields_ne_nil r) fun f hf => (hr.fields_plain f hf).1, List.length_map,
        Export.length_fields]
      omega
    have hfirst : r.fields.getD 0 [] = decimal r.taskId := rfl
    rw [hr.column, hr.column, hr.column, hr.column, hr.column, hfirst]
    refine if_congr ?_ rfl rfl
    rw [and_iff_right hlength, and_iff_right (isDigits_decimal _)]
    rfl
  -- its first line is no row
  have hheader (found : List (Text × Text)) :
      (if 3 ≤ ((Csv.line Batch.resultColumns).splitOn ',').length ∧
          isDigits (column (Csv.line Batch.resultColumns) 0) ∧
          column (Csv.line Batch.resultColumns) 2 = solverError ∧
          column (Csv.line Batch.resultColumns) 3 = "143".toList ∧ column (Csv.line Batch.resultColumns) 15 = [] then
        Dict.put found (column (Csv.line Batch.resultColumns) 0) (column (Csv.line Batch.resultColumns) 14)
      else found) = found := by
    have hfirst : column (Csv.line Batch.resultColumns) 0 = "task_id".toList := by decide +kernel
    rw [hfirst, if_neg]
    rintro ⟨-, h, -⟩
    exact absurd h (by decide)
  unfold suspects
  rw [foldl_lines _ _ hheader hrow h]
  refine hfold _ [] (fun r hr => ?_) fun e he => absurd he List.not_mem_nil
  obtain ⟨rows, hrows, hr⟩ := List.mem_flatten.mp hr
  exact h rows hrows r hr

/-- Counters whose keys are words. -/
structure Printable (t : Tally) : Prop where
  completed : 0 ≤ t.completed
  count : ∀ e ∈ t.count, Solid e.1 ∧ 0 ≤ e.2
  unresolved : ∀ e ∈ t.unresolved, Solid e.1 ∧ 0 ≤ e.2
  outcomes : ∀ e ∈ t.outcomes, ∃ status szs, Solid status ∧ Solid szs ∧ e.1 = status ++ '\t' :: szs ∧ 0 ≤ e.2
  nodup_count : (t.count.map Prod.fst).Nodup
  nodup_unresolved : (t.unresolved.map Prod.fst).Nodup
  nodup_outcomes : (t.outcomes.map Prod.fst).Nodup

theorem printable_tally {es : List Entry} (h : ∀ e ∈ es, Solid e.status ∧ Solid e.szs) : Printable (tally es) := by
  obtain ⟨hcompleted, hcount, houtcomes, hunresolved⟩ := foldl_tally es ⟨0, [], [], [], []⟩
  have hnonneg {f : Entry → Text} {l : List Entry} :
      ∀ e ∈ l.foldl (fun c a => Counter.add c (f a) 1) [], (0 : ℤ) ≤ e.2 :=
    Counter.nonneg_foldl (fun _ h => absurd h List.not_mem_nil) fun _ _ => Int.one_nonneg
  unfold tally
  refine ⟨?_, fun e he => ?_, fun e he => ?_, fun e he => ?_, ?_, ?_, ?_⟩
  · rw [hcompleted]
    positivity
  · rw [hcount] at he
    obtain ⟨a, ha, hkey⟩ := Counter.exists_of_mem_ones he
    exact ⟨hkey ▸ (h a (List.mem_filter.mp ha).1).1, hnonneg e he⟩
  · rw [hunresolved] at he
    obtain ⟨a, ha, hkey⟩ := Counter.exists_of_mem_ones he
    exact ⟨hkey ▸ (h a (List.mem_filter.mp ha).1).1, hnonneg e he⟩
  · rw [houtcomes] at he
    obtain ⟨a, ha, hkey⟩ := Counter.exists_of_mem_ones he
    obtain ⟨hstatus, hszs⟩ := h a (List.mem_filter.mp ha).1
    exact ⟨a.status, a.szs, hstatus, hszs, hkey.symm, hnonneg e he⟩
  · rw [hcount]
    exact Counter.nodup_keys_ones _ _
  · rw [hunresolved]
    exact Counter.nodup_keys_ones _ _
  · rw [houtcomes]
    exact Counter.nodup_keys_ones _ _

variable {t : Tally} {candidates : List (Text × Text)}

theorem any_linesOf (awk : Awk) (ht : Printable t) (hcandidates : ∀ e ∈ candidates, Solid e.1 ∧ Solid e.2) :
    ∀ l ∈ awk.linesOf t candidates, l.any Lines.isBoundary = false := by
  obtain ⟨hsum, hmax, -, -⟩ := awk.plain_walls t.walls
  have htwo {kind text : Text} (hkind : kind.any Lines.isBoundary = false) (htext : text.any Lines.isBoundary = false) :
      (tabbed [kind, text]).any Lines.isBoundary = false := by
    refine any_tabbed fun f hf => ?_
    simp only [List.mem_cons, List.not_mem_nil, or_false] at hf
    rcases hf with rfl | rfl
    · exact hkind
    · exact htext
  have hthree {kind key text : Text} (hkind : kind.any Lines.isBoundary = false)
      (hkey : key.any Lines.isBoundary = false) (htext : text.any Lines.isBoundary = false) :
      (tabbed [kind, key, text]).any Lines.isBoundary = false := by
    refine any_tabbed fun f hf => ?_
    simp only [List.mem_cons, List.not_mem_nil, or_false] at hf
    rcases hf with rfl | rfl | rfl
    · exact hkind
    · exact hkey
    · exact htext
  intro l hl
  unfold Awk.linesOf at hl
  simp only [List.mem_append, List.mem_cons, List.not_mem_nil, or_false, List.mem_map] at hl
  rcases hl with ((((rfl | rfl | rfl) | ⟨e, he, rfl⟩) | ⟨e, he, rfl⟩) | ⟨e, he, rfl⟩) | ⟨e, he, rfl⟩
  · exact htwo (by decide) (solid_printed t.completed).line
  · exact htwo (by decide) hsum
  · exact htwo (by decide) hmax
  · obtain ⟨status, szs, hstatus, hszs, hkey, -⟩ := ht.outcomes e ((awk.perm _).subset he)
    refine hthree (by decide) ?_ (solid_printed e.2).line
    rw [hkey, List.any_append, List.any_cons, hstatus.line, hszs.line]
    decide
  · exact hthree (by decide) (ht.count e ((awk.perm _).subset he)).1.line (solid_printed e.2).line
  · exact hthree (by decide) (ht.unresolved e ((awk.perm _).subset he)).1.line (solid_printed e.2).line
  · obtain ⟨hkey, harchive⟩ := hcandidates e ((awk.perm _).subset he)
    exact hthree (by decide) hkey.line harchive.line

/-- The keys of the outcomes can be told apart again. -/
theorem nodup_splitKey (awk : Awk) (ht : Printable t) :
    (((awk.order t.outcomes).map fun e => (splitKey e.1, e.2)).map Prod.fst).Nodup := by
  refine List.Nodup.of_map (fun p : Text × Text => p.1 ++ '\t' :: p.2) ?_
  have hsame : (((awk.order t.outcomes).map fun e => (splitKey e.1, e.2)).map Prod.fst).map
      (fun p : Text × Text => p.1 ++ '\t' :: p.2) = (awk.order t.outcomes).map Prod.fst := by
    rw [List.map_map, List.map_map]
    refine List.map_congr_left fun e he => ?_
    obtain ⟨status, szs, hstatus, -, hkey, -⟩ := ht.outcomes e ((awk.perm _).subset he)
    simp only [Function.comp_apply, splitKey]
    rw [hkey, before_append hstatus.field, after_append hstatus.field]
  rw [hsame]
  exact ((awk.perm t.outcomes).map Prod.fst).nodup_iff.mpr ht.nodup_outcomes

/-- What is read of the lines. -/
theorem foldlM_linesOf (awk : Awk) (ht : Printable t) (hcandidates : ∀ e ∈ candidates, Solid e.1 ∧ Solid e.2) :
    (awk.linesOf t candidates).foldlM parseLine ⟨0, [], [], []⟩ = some ⟨t.completed, awk.order t.count,
      (awk.order t.outcomes).map fun e => (splitKey e.1, e.2), awk.order t.unresolved⟩ := by
  obtain ⟨-, -, hsum, hmax⟩ := awk.plain_walls t.walls
  -- the candidates leave the counts as they are
  have hnone (items : List (Text × Text)) (job : Counts) : items.foldl (fun job _ => job) job = job := by
    induction items with
    | nil => rfl
    | cons e items ih => exact ih
  have hnodup {c : List (Text × ℤ)} (hc : (c.map Prod.fst).Nodup) : ((awk.order c).map Prod.fst).Nodup :=
    ((awk.perm c).map Prod.fst).nodup_iff.mpr hc
  have houtcomes := foldlM_lines (awk.order t.outcomes) (fun e => tabbed ["outcome".toList, e.1, printed e.2])
    (fun job e => { job with outcomeCounts := Dict.put job.outcomeCounts (splitKey e.1) e.2 }) fun e he job => by
      obtain ⟨status, szs, hstatus, hszs, hkey, hn⟩ := ht.outcomes e ((awk.perm _).subset he)
      rw [hkey, parseLine_outcome hstatus.field hszs.field hn, splitKey, before_append hstatus.field,
        after_append hstatus.field]
  have hcount := foldlM_lines (awk.order t.count) (fun e => tabbed ["status".toList, e.1, printed e.2])
    (fun job e => { job with statusCounts := Dict.put job.statusCounts e.1 e.2 }) fun e he job => by
      have hkey := ht.count e ((awk.perm _).subset he)
      exact parseLine_status hkey.1.field hkey.2
  have hunresolved := foldlM_lines (awk.order t.unresolved) (fun e => tabbed ["unresolved".toList, e.1, printed e.2])
    (fun job e => { job with unresolvedCounts := Dict.put job.unresolvedCounts e.1 e.2 }) fun e he job => by
      have hkey := ht.unresolved e ((awk.perm _).subset he)
      exact parseLine_unresolved hkey.1.field hkey.2
  have hlast := foldlM_lines (awk.order candidates) (fun e => tabbed ["candidate".toList, e.1, e.2])
    (fun job _ => job) fun e he job => by
    have hsolid := hcandidates e ((awk.perm _).subset he)
    exact parseLine_candidate hsolid.1.field hsolid.2.field
  unfold Awk.linesOf
  rw [List.foldlM_append, List.foldlM_append, List.foldlM_append, List.foldlM_append]
  simp only [List.foldlM_cons, List.foldlM_nil, parseLine_completed ht.completed, parseLine_wall (.inl rfl) hsum,
    parseLine_wall (.inr rfl) hmax, Option.bind_eq_bind, Option.bind_some, Option.pure_def]
  -- no key comes twice, so that every count stays
  rw [houtcomes, Option.bind_some, hcount, Option.bind_some, hunresolved, Option.bind_some, hlast, hnone,
    foldl_outcomes, foldl_status, foldl_unresolved,
    Dict.putAll_of_nodup (by rw [List.nil_append]; exact nodup_splitKey awk ht),
    Dict.putAll_of_nodup (by rw [List.nil_append]; exact hnodup ht.nodup_count),
    Dict.putAll_of_nodup (by rw [List.nil_append]; exact hnodup ht.nodup_unresolved), List.nil_append, List.nil_append,
    List.nil_append]

theorem solid_entries (awk : Awk) (h : ∀ rows ∈ tables, ∀ r ∈ rows, PlainRow r) :
    ∀ e ∈ awk.order ((entries (tables.map tableOf)).map Prod.snd), Solid e.status ∧ Solid e.szs := by
  intro e he
  obtain ⟨r, hr, rfl⟩ := entry_of_mem awk h he
  exact ⟨solid_word (corrected_word hr), solid_word hr.szs⟩

/-- The summary of tables is read. -/
theorem parseSummary_output (awk : Awk) (h : ∀ rows ∈ tables, ∀ r ∈ rows, PlainRow r) :
    ∃ t, t = tally (awk.order ((entries (tables.map tableOf)).map Prod.snd)) ∧ Printable t ∧
      parseSummary (awk.output (tables.map tableOf)) = some ⟨t.completed, awk.order t.count,
        (awk.order t.outcomes).map fun e => (splitKey e.1, e.2), awk.order t.unresolved⟩ := by
  have ht : Printable (tally (awk.order ((entries (tables.map tableOf)).map Prod.snd))) :=
    printable_tally (solid_entries awk h)
  refine ⟨_, rfl, ht, ?_⟩
  unfold parseSummary Awk.output
  rw [Lines.splitlines_unlines (any_linesOf awk ht (solid_suspects h)), foldlM_linesOf awk ht (solid_suspects h)]

end Output

/-! ### The outcomes -/

section Published

variable {tables : List (List ResultRow)} (awk : Awk) (asFloat : Text → Option ℚ) (casefold : Text → Text)

/-- The outcome of an entry. -/
def Entry.outcome (e : Entry) : Outcomes.Outcome :=
  callOutcome casefold (some (Outcomes.compactResult e.status e.szs))

/-- The outcomes are those of the entries, in whatever order they were printed. -/
theorem count_published {es : List Entry} (h : ∀ e ∈ es, Solid e.status ∧ Solid e.szs) (completed : ℤ)
    (unresolved : List (Text × ℤ)) (outcome : Outcomes.Outcome) :
    Counter.count (publishedCounts casefold ((Counts.mk completed (awk.order (tally es).count)
      ((awk.order (tally es).outcomes).map fun e => (splitKey e.1, e.2)) unresolved).summary [])) outcome =
      ((es.filter fun e => e.isComplete && decide (e.outcome casefold = outcome)).length : ℤ) := by
  obtain ⟨-, hcount, houtcomes, -⟩ := foldl_tally es ⟨0, [], [], [], []⟩
  have hprintable : Printable (tally es) := printable_tally h
  have hone (p : Text → Bool) : Counter.totalWhere p (tally es).outcomes =
      (((es.filter Entry.isComplete).filter fun e => p (e.status ++ '\t' :: e.szs)).length : ℤ) := by
    rw [tally, houtcomes, Counter.totalWhere_ones]
  have hsplit : (es.filter fun e => e.isComplete && decide (e.outcome casefold = outcome)) =
      (es.filter Entry.isComplete).filter fun e => decide (e.outcome casefold = outcome) := by
    rw [List.filter_filter]
    exact List.filter_congr fun e _ => Bool.and_comm _ _
  rw [hsplit]
  by_cases hnil : (tally es).outcomes = []
  · -- nothing is complete
    have hnone : es.filter Entry.isComplete = [] := by
      have hlength := hone fun _ => true
      rw [hnil, List.filter_true] at hlength
      exact List.length_eq_zero_iff.mp (Int.natCast_eq_zero.mp hlength.symm)
    have hempty : (tally es).count = [] := by rw [tally, hcount, hnone, List.foldl_nil]
    have horder {α : Type} : awk.order ([] : List α) = [] := List.perm_nil.mp (awk.perm [])
    rw [hnil, hempty, hnone, horder]
    rfl
  · have hne : awk.order (tally es).outcomes ≠ [] := fun heq => hnil (List.nil_perm.mp (heq ▸ awk.perm _))
    have hnonneg (e : Text × ℤ) (he : e ∈ awk.order (tally es).outcomes) : 0 ≤ e.2 := by
      obtain ⟨-, -, -, -, -, hn⟩ := hprintable.outcomes e ((awk.perm _).subset he)
      exact hn
    -- the counted outcomes are used
    unfold publishedCounts
    rw [if_pos]
    · rw [Counter.count_eq_totalWhere (Counter.nodup_keys_foldl (c := []) List.nodup_nil), Counter.totalWhere_foldl,
        Counter.sum_filter_of_zero]
      · have hkeys : Counter.totalWhere (fun key => decide
              (callOutcome casefold (some (Outcomes.compactResult (splitKey key).1 (splitKey key).2)) = outcome))
              (tally es).outcomes =
            (((es.filter Entry.isComplete).filter fun e => decide (e.outcome casefold = outcome)).length : ℤ) := by
          rw [hone]
          refine congrArg (fun l : List Entry => (l.length : ℤ)) (List.filter_congr fun e he => ?_)
          have hstatus := (h e (List.mem_filter.mp he).1).1.field
          rw [splitKey, before_append hstatus, after_append hstatus, Entry.outcome]
        rw [← hkeys, ← Counter.totalWhere_perm (awk.perm (tally es).outcomes)]
        refine (zero_add _).trans (congrArg List.sum ?_)
        show List.map _ (List.map _ (List.map _ _)) = _
        rw [List.map_map, List.map_map]
        refine List.map_congr_left fun e he => ?_
        simp only [Function.comp_apply, Int.toNat_of_nonneg (hnonneg e he)]
      · intro e _ hzero
        have hzero : e.2 = 0 := Nat.eq_zero_of_not_pos (of_decide_eq_false hzero)
        rw [hzero, Nat.cast_zero, ite_self]
    · exact fun heq => hne (List.map_eq_nil_iff.mp (List.map_eq_nil_iff.mp heq))

/-- The outcomes of the results that are shown in detail. -/
theorem count_detailed (results : List (ℕ × ResultRecord)) (outcome : Outcomes.Outcome) :
    Counter.count (publishedCounts casefold ((summarizeResults results).summary results)) outcome =
      ((results.filter fun p => p.2.complete && decide (callOutcome casefold (some p.2) = outcome)).length : ℤ) := by
  have hsplit : (results.filter fun p => p.2.complete && decide (callOutcome casefold (some p.2) = outcome)) =
      (results.filter fun p => p.2.complete).filter fun p => decide (callOutcome casefold (some p.2) = outcome) := by
    rw [List.filter_filter]
    exact List.filter_congr fun p _ => Bool.and_comm _ _
  have hnone : ¬ ((summarizeResults results).summary results).outcomeCounts ≠ [] := fun h => h rfl
  unfold publishedCounts
  rw [if_neg hnone, hsplit]
  by_cases hnil : results = []
  · rw [hnil]
    rfl
  · have hsome : ((summarizeResults results).summary results).results ≠ [] := hnil
    rw [if_pos hsome]
    exact Counter.count_ones (fun p : ℕ × ResultRecord => callOutcome casefold (some p.2)) _ outcome

end Published

/-! ### The counts -/

section Agree

variable {tables : List (List ResultRow)} (awk : Awk) (asFloat : Text → Option ℚ)

/-- The rows that count. -/
def counting (tables : List (List ResultRow)) : List ResultRow := (Export.latestRows tables.flatten).map Prod.snd

/-- The status that awk counts. -/
def awkStatus (r : ResultRow) : Text := corrected (statusOf r) (codeOf r) (szsOf r)

/-- The status that `normalize_szs_result` leaves. -/
def pythonStatus (r : ResultRow) : Text := (normalizeSzsResult (recordOf asFloat r)).status

/-- The number of rows with a status. -/
def numberOf (q : ResultRow → Bool) (status : ResultRow → Text) (rows : List ResultRow) (key : Text) : ℤ :=
  ((rows.filter fun r => q r && decide (status r = key)).length : ℤ)

/-- The order does not matter. -/
theorem count_order {α κ : Type} [DecidableEq κ] (f : α → κ) (l : List α) (k : κ) :
    Counter.count (awk.order (l.foldl (fun c a => Counter.add c (f a) 1) [])) k =
      ((l.filter fun a => decide (f a = k)).length : ℤ) := by
  have hperm := awk.perm (l.foldl (fun c a => Counter.add c (f a) 1) [])
  have hnodup := (hperm.map Prod.fst).nodup_iff.mpr (Counter.nodup_keys_ones f l)
  rw [Counter.count_eq_totalWhere hnodup, Counter.totalWhere_perm hperm, Counter.totalWhere_ones]

theorem isComplete_entryOf (r : ResultRow) : (entryOf r).isComplete = r.complete := by
  show decide (Batch.completeText r.complete = "true".toList) = r.complete
  cases r.complete <;> decide

/-- The entries that awk goes through, and the rows that count. -/
theorem entries_perm (h : ∀ rows ∈ tables, ∀ r ∈ rows, PlainRow r) :
    (awk.order ((entries (tables.map tableOf)).map Prod.snd)).Perm ((counting tables).map entryOf) := by
  refine (awk.perm _).trans (List.Perm.of_eq ?_)
  rw [entries_tables h, counting, List.map_map, List.map_map]
  rfl

theorem length_entries (h : ∀ rows ∈ tables, ∀ r ∈ rows, PlainRow r) (q : Entry → Bool) :
    ((awk.order ((entries (tables.map tableOf)).map Prod.snd)).filter q).length =
      ((counting tables).filter fun r => q (entryOf r)).length := by
  rw [((entries_perm awk h).filter q).length_eq, List.filter_map, List.length_map]
  rfl

theorem plain_counting (h : ∀ rows ∈ tables, ∀ r ∈ rows, PlainRow r) : ∀ r ∈ counting tables, PlainRow r := by
  intro r hr
  obtain ⟨p, hp, rfl⟩ := List.mem_map.mp hr
  exact plain_latest h p hp

/-- The counts of the overview. -/
theorem overview_counts (h : ∀ rows ∈ tables, ∀ r ∈ rows, PlainRow r) :
    ∃ overview, parseSummary (awk.output (tables.map tableOf)) = some overview ∧
      (∀ casefold outcome, Counter.count (publishedCounts casefold (overview.summary [])) outcome =
        (((counting tables).filter fun r => r.complete &&
          decide ((entryOf r).outcome casefold = outcome)).length : ℤ)) ∧
      overview.completed = (((counting tables).filter ResultRow.complete).length : ℤ) ∧
      (∀ key, Counter.count overview.statusCounts key = numberOf ResultRow.complete awkStatus (counting tables) key) ∧
      ∀ key, Counter.count overview.unresolvedCounts key =
        numberOf (fun r => !r.complete) awkStatus (counting tables) key := by
  obtain ⟨t, ht, -, hparse⟩ := parseSummary_output awk h
  obtain ⟨hcompleted, hcount, -, hunresolved⟩ :=
    foldl_tally (awk.order ((entries (tables.map tableOf)).map Prod.snd)) ⟨0, [], [], [], []⟩
  have hfilter (q : Entry → Bool) (key : Text) :
      ((((awk.order ((entries (tables.map tableOf)).map Prod.snd)).filter q).filter
        fun e => decide (e.status = key)).length : ℤ) =
      numberOf (fun r => q (entryOf r)) awkStatus (counting tables) key := by
    rw [List.filter_filter, length_entries awk h]
    refine congrArg (fun l : List ResultRow => (l.length : ℤ)) (List.filter_congr fun r _ => ?_)
    exact Bool.and_comm _ _
  refine ⟨_, hparse, fun casefold outcome => ?_, ?_, fun key => ?_, fun key => ?_⟩
  · rw [ht, count_published awk casefold (solid_entries awk h), length_entries awk h]
    simp only [isComplete_entryOf]
  · show t.completed = _
    rw [ht, tally, hcompleted, zero_add, length_entries awk h]
    simp only [isComplete_entryOf]
  · show Counter.count (awk.order t.count) key = _
    rw [ht, tally, hcount, count_order, hfilter]
    simp only [isComplete_entryOf]
  · show Counter.count (awk.order t.unresolved) key = _
    rw [ht, tally, hunresolved, count_order, hfilter]
    simp only [isComplete_entryOf]

/-- The counts of the results that are shown in detail. -/
theorem detail_counts {tables : List (List ResultRow)} (h : ∀ rows ∈ tables, ∀ r ∈ rows, PlainRow r) :
    ∃ results, detailedResults asFloat (tables.map tableOf) = some results ∧
      (summarizeResults results).completed = (((counting tables).filter ResultRow.complete).length : ℤ) ∧
      (∀ key, Counter.count (summarizeResults results).statusCounts key =
        numberOf ResultRow.complete (pythonStatus asFloat) (counting tables) key) ∧
      (∀ key, Counter.count (summarizeResults results).unresolvedCounts key =
        numberOf (fun r => !r.complete) (pythonStatus asFloat) (counting tables) key) ∧
      results.map Prod.snd = (counting tables).map fun r => normalizeSzsResult (recordOf asFloat r) := by
  refine ⟨_, detailedResults_tables asFloat fun rows hrows r hr => (h rows hrows r hr).short, ?_, fun key => ?_, fun key => ?_, ?_⟩
  · show (((Dict.mapValues (fun r => normalizeSzsResult (recordOf asFloat r))
      (Export.latestRows tables.flatten)).filter fun p => p.2.complete).length : ℤ) = _
    rw [Dict.mapValues, List.filter_map, List.length_map, counting, List.filter_map, List.length_map]
    refine congrArg (fun l : List (ℕ × ResultRow) => (l.length : ℤ)) (List.filter_congr fun p _ => ?_)
    exact complete_normalized asFloat p.2
  · show Counter.count ((Dict.mapValues (fun r => normalizeSzsResult (recordOf asFloat r))
      (Export.latestRows tables.flatten)).foldl
        (fun c p => if p.2.complete then Counter.add c p.2.status 1 else c) []) key = _
    rw [← List.foldl_filter, Counter.count_ones, Dict.mapValues, List.filter_filter, List.filter_map, List.length_map, numberOf,
      counting, List.filter_map, List.length_map]
    refine congrArg (fun l : List (ℕ × ResultRow) => (l.length : ℤ)) (List.filter_congr fun p _ => ?_)
    simp only [Function.comp_apply, complete_normalized, pythonStatus]
    exact Bool.and_comm _ _
  · have hflip : (fun (c : List (Text × ℤ)) (p : ℕ × ResultRecord) =>
        if p.2.complete then c else Counter.add c p.2.status 1) =
        fun c p => if !p.2.complete then Counter.add c p.2.status 1 else c := by
      funext c p
      cases p.2.complete <;> rfl
    show Counter.count ((Dict.mapValues (fun r => normalizeSzsResult (recordOf asFloat r))
      (Export.latestRows tables.flatten)).foldl
        (fun c p => if p.2.complete then c else Counter.add c p.2.status 1) []) key = _
    rw [hflip, ← List.foldl_filter, Counter.count_ones, Dict.mapValues, List.filter_filter, List.filter_map, List.length_map,
      numberOf, counting, List.filter_map, List.length_map]
    refine congrArg (fun l : List (ℕ × ResultRow) => (l.length : ℤ)) (List.filter_congr fun p _ => ?_)
    simp only [Function.comp_apply, complete_normalized, pythonStatus]
    exact Bool.and_comm _ _
  · rw [Dict.mapValues, List.map_map, counting, List.map_map]
    rfl

/-- Statuses that differ only where the first is an error and the second is none. -/
theorem numbers_congr_iff {rows : List ResultRow} {f g : ResultRow → Text} (q : ResultRow → Bool)
    (h : ∀ r ∈ rows, f r ≠ g r → f r = solverError ∧ g r ≠ solverError) :
    (∀ key, numberOf q f rows key = numberOf q g rows key) ↔ ∀ r ∈ rows, q r = true → f r = g r := by
  constructor
  · intro hsame r hr hq
    by_contra hne
    obtain ⟨hf, hg⟩ := h r hr hne
    -- the errors of `g` are among those of `f`
    have hnested : (rows.filter fun r => q r && decide (g r = solverError)) =
        (rows.filter fun r => q r && decide (f r = solverError)).filter fun r => decide (g r = solverError) := by
      rw [List.filter_filter]
      refine List.filter_congr fun r hr => ?_
      by_cases hgr : g r = solverError
      · have hfr : f r = solverError := by
          by_contra hfr
          exact (h r hr fun heq => hfr (heq.trans hgr)).2 hgr
        simp [hgr, hfr]
      · simp [hgr]
    have hlength := hsame solverError
    unfold numberOf at hlength
    rw [hnested, Nat.cast_inj, eq_comm, List.length_filter_eq_length_iff] at hlength
    have hmem : r ∈ rows.filter fun r => q r && decide (f r = solverError) :=
      List.mem_filter.mpr ⟨hr, by rw [hq, Bool.true_and]; exact decide_eq_true hf⟩
    exact hg (of_decide_eq_true (hlength r hmem))
  · intro hsame key
    unfold numberOf
    refine congrArg (fun l : List ResultRow => (l.length : ℤ)) (List.filter_congr fun r hr => ?_)
    cases hq : q r with
    | false => rfl
    | true => rw [hsame r hr hq]

theorem status_eq_iff {r : ResultRow} (h : PlainRow r) : awkStatus r = pythonStatus asFloat r ↔ ¬ Deviates r := by
  constructor
  · intro heq hr
    exact normalized_of_deviates asFloat hr (heq.symm.trans (corrected_of_deviates hr))
  · exact fun hr => (status_eq asFloat h hr).symm

/-- Where awk finds no error, `normalize_szs_result` finds none. -/
theorem numberOf_eq_iff (h : ∀ r ∈ counting tables, PlainRow r) (q : ResultRow → Bool) :
    (∀ key, numberOf q awkStatus (counting tables) key = numberOf q (pythonStatus asFloat) (counting tables) key) ↔
      ∀ r ∈ counting tables, q r = true → ¬ Deviates r := by
  rw [numbers_congr_iff q fun r hr hne => ?_]
  · exact forall₂_congr fun r hr => forall_congr' fun _ => status_eq_iff asFloat (h r hr)
  · have hdeviates : Deviates r := by
      by_contra hnot
      exact hne ((status_eq_iff asFloat (h r hr)).mpr hnot)
    exact ⟨corrected_of_deviates hdeviates, normalized_of_deviates asFloat hdeviates⟩

/-- Both summaries read the tables, and have the same numbers of results and the same outcomes.  They have the same
statuses exactly when no row that counts is one that only `normalize_szs_result` corrects. -/
theorem summaries_agree_iff (casefold : Text → Text)
    (hcasefold : ∀ t : Text, (∀ c ∈ t, isWordChar c = true) → casefold t = lower t)
    (hplain : ∀ rows ∈ tables, ∀ r ∈ rows, PlainRow r) :
    ∃ overview results, parseSummary (awk.output (tables.map tableOf)) = some overview ∧
      detailedResults asFloat (tables.map tableOf) = some results ∧
      overview.completed = (summarizeResults results).completed ∧
      (∀ outcome, Counter.count (publishedCounts casefold (overview.summary [])) outcome =
        Counter.count (publishedCounts casefold ((summarizeResults results).summary results)) outcome) ∧
      (((∀ status, Counter.count overview.statusCounts status =
          Counter.count (summarizeResults results).statusCounts status) ∧
        ∀ status, Counter.count overview.unresolvedCounts status =
          Counter.count (summarizeResults results).unresolvedCounts status) ↔
        ∀ r ∈ counting tables, ¬ Deviates r) := by
  obtain ⟨overview, hoverview, houtcomes, hcompleted, hstatus, hunresolved⟩ := overview_counts awk hplain
  obtain ⟨results, hresults, hcompleted', hstatus', hunresolved', hrecords⟩ := detail_counts asFloat hplain
  have hcounting := plain_counting hplain
  refine ⟨overview, results, hoverview, hresults, hcompleted.trans hcompleted'.symm, fun outcome => ?_, ?_⟩
  · have hdetail (q : ResultRecord → Bool) : (results.filter fun p => q p.2).length =
        ((counting tables).filter fun r => q (normalizeSzsResult (recordOf asFloat r))).length := by
      have hmap : (results.filter fun p => q p.2).map Prod.snd = (results.map Prod.snd).filter q := by
        rw [List.filter_map]
        rfl
      rw [← List.length_map (f := Prod.snd), hmap, hrecords, List.filter_map, List.length_map]
      rfl
    rw [houtcomes, count_detailed,
      hdetail fun record => record.complete && decide (callOutcome casefold (some record) = outcome)]
    refine congrArg (fun l : List ResultRow => (l.length : ℤ)) (List.filter_congr fun r hr => ?_)
    rw [complete_normalized, callOutcome_eq asFloat hcasefold (hcounting r hr)]
    rfl
  · simp only [hstatus, hstatus', hunresolved, hunresolved']
    rw [numberOf_eq_iff asFloat hcounting, numberOf_eq_iff asFloat hcounting]
    constructor
    · rintro ⟨hcomplete, hrest⟩ r hr
      cases hq : r.complete with
      | true => exact hcomplete r hr hq
      | false => exact hrest r hr (by rw [hq]; rfl)
    · intro hnone
      exact ⟨fun r hr _ => hnone r hr, fun r hr _ => hnone r hr⟩

/-- A row with a status, a code and an SZS status. -/
def sampleRow (taskId : ℕ) (complete : Bool) (status code szs : String) : ResultRow where
  taskId := taskId
  complete := complete
  rest := [status.toList, code.toList, "1.5".toList, [], [], [], [], [], [], [], [], [],
    "Verbose/batch_000001/0.tar.gz".toList, szs.toList, []]
  length_rest := rfl

/-- Two rows of a task, of which the second counts, and one that only `normalize_szs_result` corrects. -/
def sampleTables : List (List ResultRow) :=
  [[sampleRow 0 false "solver-error" "1" "", sampleRow 7 true "solver-error" "1" "TIMEOUT"],
    [sampleRow 0 true "solver-error" "0" "Theorem"]]

theorem plainRow_sampleTables : ∀ rows ∈ sampleTables, ∀ r ∈ rows, PlainRow r := by
  simp only [sampleTables, List.forall_mem_cons, List.not_mem_nil, false_imp_iff, implies_true, and_true]
  refine ⟨⟨?_, ?_⟩, ?_⟩ <;>
  · constructor
    case fields => decide +kernel
    case status => exact List.all_eq_true.mp (by decide +kernel)
    case szs => exact List.all_eq_true.mp (by decide +kernel)
    case code => decide +kernel
    case archive => exact List.all_iff_forall_prop.mp (by decide +kernel)
    case short => decide +kernel

/-- An awk that goes through its arrays backwards. -/
def backwards : Awk where
  order := List.reverse
  perm := List.reverse_perm
  wallSum _ := "0.0".toList
  wallMax _ := "0.0".toList
  plain_walls _ := by decide

theorem summaries_agree_sample : ∃ overview results,
    parseSummary (backwards.output (sampleTables.map tableOf)) = some overview ∧
      detailedResults (fun _ => none) (sampleTables.map tableOf) = some results ∧
      overview.completed = (summarizeResults results).completed ∧
      (∀ outcome, Counter.count (publishedCounts lower (overview.summary [])) outcome =
        Counter.count (publishedCounts lower ((summarizeResults results).summary results)) outcome) ∧
      (((∀ status, Counter.count overview.statusCounts status =
          Counter.count (summarizeResults results).statusCounts status) ∧
        ∀ status, Counter.count overview.unresolvedCounts status =
          Counter.count (summarizeResults results).unresolvedCounts status) ↔
        ∀ r ∈ counting sampleTables, ¬ Deviates r) :=
  summaries_agree_iff backwards (fun _ => none) lower (fun _ _ => rfl) plainRow_sampleTables

end Agree

end Summaries
end Slurmy

import Slurmy.Submission.Selection

/-!
# Result files of a batch

`call.sh` publishes the row of a pair twice: alone under a header as the individual result file, and
in the index of the batch, where it replaces an earlier row of the pair.

* `ResultRow`, `resultFile`, `newIndex`: the rows, the individual file, and the index after a call;
* `lines`, `fieldOne`, `fieldTwo`: what `awk -F,` makes of a text;
* `keepsResult`: the test by which `batch.sh` skips a completed pair, `keepsResult_resultFile`;
* `newIndex_tableOf`: the rows of the new index, when no field contains a newline;
* `Says`: the pairs that a file records as complete for the readers of CSV.
-/

namespace Slurmy
namespace Batch

open Submission

/-! ### Rows -/

/-- The columns of a result file. -/
def resultColumns : List Text :=
  ["task_id".toList, "complete".toList, "status".toList, "return_code".toList,
    "wall_seconds".toList, "cpu_seconds".toList, "user_seconds".toList, "system_seconds".toList,
    "cpu_usage_percent".toList, "max_virtual_memory_kib".toList, "max_memory_kib".toList,
    "timed_out".toList, "memory_out".toList, "task_key".toList, "archive".toList,
    "szs_status".toList, "szs_output".toList]

/-- The row of a call; `rest` are the fields after `complete`. -/
structure ResultRow where
  taskId : ℕ
  complete : Bool
  rest : List Text
  length_rest : rest.length = 15
  deriving DecidableEq

/-- `$complete`. -/
def completeText (complete : Bool) : Text := (if complete then "true" else "false").toList

def ResultRow.fields (r : ResultRow) : List Text :=
  decimal r.taskId :: completeText r.complete :: r.rest

/-- No field of the row contains a newline. -/
def ResultRow.oneLine (r : ResultRow) : Bool := r.rest.all fun f => '\n' ∉ f

/-- A header and rows. -/
def tableOf (rows : List ResultRow) : Text :=
  csvRow resultColumns ++ rows.flatMap fun r => csvRow r.fields

/-- `batch_%06d_task_%09d.csv` as `call.sh` publishes it. -/
def resultFile (r : ResultRow) : Text := tableOf [r]

/-! ### awk -/

/-- The lines of a text, the last one with or without a newline after it. -/
def lines : Text → List Text
  | [] => []
  | c :: t =>
      if c = '\n' then [] :: lines t
      else
        match lines t with
        | [] => [[c]]
        | l :: ls => (c :: l) :: ls

/-- `gsub(/"/, "", field)`. -/
def unquoted (field : Text) : Text := field.filter (· ≠ '"')

/-- `$1` under `-F,`. -/
def fieldOne (line : Text) : Text := before ',' line

/-- `$2` under `-F,`. -/
def fieldTwo (line : Text) : Text := before ',' (after ',' line)

/-- The awk test of `batch.sh` on a result file: the second line says that the pair is complete. -/
def keepsResult (t : Text) : Bool :=
  match (lines t)[1]? with
  | some line => unquoted (fieldTwo line) = "true".toList
  | none => false

/-- The awk filter of `call.sh` on an index: the first line, and the lines of other pairs. -/
def withoutTask (id : Text) (t : Text) : Text :=
  match lines t with
  | [] => []
  | header :: ls => (header :: ls.filter fun l => unquoted (fieldOne l) ≠ id).flatMap (· ++ ['\n'])

/-- The index of a batch after the call with this row. -/
def newIndex (index : Option Text) (r : ResultRow) : Text :=
  (match index with
    | some t => withoutTask (decimal r.taskId) t
    | none => csvRow resultColumns) ++ csvRow r.fields

/-! ### Lines -/

theorem lines_append {l : Text} (h : '\n' ∉ l) (t : Text) : lines (l ++ '\n' :: t) = l :: lines t := by
  induction l with
  | nil => simp [lines]
  | cons c l ih =>
    rw [List.mem_cons, not_or] at h
    rw [List.cons_append, lines, if_neg (Ne.symm h.1), ih h.2]

theorem lines_flatMap {ls : List Text} (h : ∀ l ∈ ls, '\n' ∉ l) :
    lines (ls.flatMap (· ++ ['\n'])) = ls := by
  induction ls with
  | nil => rfl
  | cons l ls ih =>
    rw [List.flatMap_cons, List.append_assoc, List.singleton_append,
      lines_append (h l List.mem_cons_self), ih fun m hm => h m (List.mem_cons_of_mem l hm)]

/-- The first line of a text that starts with `p`. -/
theorem exists_lines_eq_cons {p : Text} (h : '\n' ∉ p) (hne : p ≠ []) (u : Text) :
    ∃ v ls, lines (p ++ u) = (p ++ v) :: ls := by
  induction p with
  | nil => exact absurd rfl hne
  | cons c p ih =>
    rw [List.mem_cons, not_or] at h
    rw [List.cons_append, lines, if_neg (Ne.symm h.1)]
    cases p with
    | nil =>
      cases hu : lines u with
      | nil => exact ⟨[], [], by simp [hu]⟩
      | cons l ls => exact ⟨l, ls, by simp [hu]⟩
    | cons d p =>
      obtain ⟨v, ls, hv⟩ := ih h.2 (List.cons_ne_nil d p)
      rw [hv]
      exact ⟨v, ls, rfl⟩

theorem mem_of_mem_decimal {n : ℕ} {c : Char} (hc : c.isDigit = false) : c ∉ decimal n :=
  not_mem_of_isDigits (isDigits_decimal n) hc

theorem escape_eq_self {t : Text} (h : '"' ∉ t) : Csv.escape t = t := by
  induction t with
  | nil => rfl
  | cons c t ih =>
    rw [List.mem_cons, not_or] at h
    have hc : Csv.escape (c :: t) = c :: Csv.escape t := by
      simp [Csv.escape, Ne.symm h.1]
    rw [hc, ih h.2]

theorem unquoted_quote {t : Text} (h : '"' ∉ t) : unquoted (Csv.quote t) = t := by
  simp only [unquoted, Csv.quote, escape_eq_self h]
  simp
  intro c hc heq
  exact h (heq ▸ hc)

theorem fieldOne_quote {t : Text} (hc : ',' ∉ t) (u : Text) :
    fieldOne (Csv.quote t ++ ',' :: u) = Csv.quote t :=
  before_append (mt (Csv.mem_quote (by decide)).1 hc) u

theorem fieldTwo_quote {s t : Text} (hs : ',' ∉ s) (ht : ',' ∉ t) (u : Text) :
    fieldTwo (Csv.quote s ++ ',' :: (Csv.quote t ++ ',' :: u)) = Csv.quote t := by
  unfold fieldTwo
  rw [after_append (mt (Csv.mem_quote (by decide)).1 hs),
    before_append (mt (Csv.mem_quote (by decide)).1 ht)]

/-! ### A row as text -/

section Row

variable (r : ResultRow)

theorem not_mem_completeText (b : Bool) :
    ',' ∉ completeText b ∧ '"' ∉ completeText b ∧ '\n' ∉ completeText b := by
  cases b <;> decide

/-- The text of a row starts with its first two fields. -/
theorem csvRow_fields : ∃ u, csvRow r.fields = Csv.quote (decimal r.taskId) ++ ',' ::
    (Csv.quote (completeText r.complete) ++ ',' :: u) := by
  obtain ⟨taskId, complete, rest, hlen⟩ := r
  cases rest with
  | nil => cases hlen
  | cons f rest =>
    rw [csvRow_eq_row]
    exact ⟨Csv.row (f :: rest), rfl⟩

/-- **The skip test.**  `batch.sh` keeps a published result exactly when its row is complete. -/
theorem keepsResult_resultFile : keepsResult (resultFile r) = r.complete := by
  obtain ⟨u, hu⟩ := csvRow_fields r
  have hheader : csvRow resultColumns = Csv.line resultColumns ++ ['\n'] := by
    rw [csvRow_eq_row, Csv.row_eq_line]
  have hline : '\n' ∉ Csv.line resultColumns := Csv.newline_not_mem_line (by decide)
  have htext : resultFile r = Csv.line resultColumns ++ '\n' :: csvRow r.fields := by
    simp [resultFile, tableOf, hheader]
  have hid : ∀ {c : Char}, c.isDigit = false → c ∉ decimal r.taskId := mem_of_mem_decimal
  obtain ⟨hcomma, hquote, hnewline⟩ := not_mem_completeText r.complete
  -- the first two fields are on the second line of the file, whatever the others contain
  have hstart : '\n' ∉ Csv.quote (decimal r.taskId) ++ ',' ::
      (Csv.quote (completeText r.complete) ++ [',']) := by
    simp only [List.mem_append, List.mem_cons, not_or, Csv.mem_quote (by decide : '\n' ≠ '"')]
    exact ⟨hid rfl, by decide, hnewline, by decide, List.not_mem_nil⟩
  have hsplit : csvRow r.fields = (Csv.quote (decimal r.taskId) ++ ',' ::
      (Csv.quote (completeText r.complete) ++ [','])) ++ u := by
    rw [hu]
    simp
  obtain ⟨v, ls, hv⟩ := exists_lines_eq_cons hstart (by simp) u
  have hsecond : (lines (resultFile r))[1]? = some (Csv.quote (decimal r.taskId) ++ ',' ::
      (Csv.quote (completeText r.complete) ++ ',' :: v)) := by
    rw [htext, lines_append hline, hsplit, hv]
    simp
  unfold keepsResult
  rw [hsecond]
  simp only [fieldTwo_quote (hid rfl) hcomma, unquoted_quote hquote]
  cases r.complete <;> decide

theorem newline_not_mem_fields (h : r.oneLine = true) : ∀ f ∈ r.fields, '\n' ∉ f := by
  intro f hf
  rcases List.mem_cons.1 hf with rfl | hf
  · exact mem_of_mem_decimal rfl
  · rcases List.mem_cons.1 hf with rfl | hf
    · exact (not_mem_completeText r.complete).2.2
    · exact of_decide_eq_true (List.all_eq_true.1 h f hf)

/-- The first field of a row's line is its task. -/
theorem fieldOne_line : unquoted (fieldOne (Csv.line r.fields)) = decimal r.taskId := by
  obtain ⟨taskId, complete, rest, hlen⟩ := r
  show unquoted (fieldOne (Csv.quote (decimal taskId) ++ ',' :: _)) = _
  rw [fieldOne_quote (mem_of_mem_decimal rfl), unquoted_quote (mem_of_mem_decimal rfl)]

end Row

theorem tableOf_eq_flatMap (rows : List ResultRow) :
    tableOf rows = (Csv.line resultColumns :: rows.map fun r => Csv.line r.fields).flatMap
      (· ++ ['\n']) := by
  unfold tableOf
  rw [csvRow_eq_row, List.flatMap_cons, List.flatMap_map]
  simp only [Csv.row_eq_line]

/-- The rows that the filter of `call.sh` leaves. -/
theorem withoutTask_tableOf {rows : List ResultRow} (h : ∀ r ∈ rows, r.oneLine = true) (task : ℕ) :
    withoutTask (decimal task) (tableOf rows) = tableOf (rows.filter fun r => r.taskId ≠ task) := by
  have hlines : ∀ l ∈ Csv.line resultColumns :: rows.map fun r => Csv.line r.fields, '\n' ∉ l := by
    intro l hl
    rcases List.mem_cons.1 hl with rfl | hl
    · exact Csv.newline_not_mem_line (by decide)
    · obtain ⟨r, hr, rfl⟩ := List.mem_map.1 hl
      exact Csv.newline_not_mem_line (newline_not_mem_fields r (h r hr))
  have hfilter : ((rows.map fun r => Csv.line r.fields).filter fun l =>
      unquoted (fieldOne l) ≠ decimal task) =
      (rows.filter fun r => r.taskId ≠ task).map fun r => Csv.line r.fields := by
    rw [List.filter_map]
    congr 1
    apply List.filter_congr
    intro r _
    simp only [Function.comp_apply, fieldOne_line]
    rw [decide_eq_decide]
    exact not_congr ⟨decimal_injective, congrArg decimal⟩
  rw [tableOf_eq_flatMap, withoutTask, lines_flatMap hlines]
  simp only [hfilter]
  rw [tableOf_eq_flatMap]

/-- **The index after a call.**  The row of the pair is replaced. -/
theorem newIndex_tableOf {rows : List ResultRow} (h : ∀ r ∈ rows, r.oneLine = true)
    (r : ResultRow) :
    newIndex (some (tableOf rows)) r =
      tableOf ((rows.filter fun q => q.taskId ≠ r.taskId) ++ [r]) := by
  simp only [newIndex, withoutTask_tableOf h]
  simp [tableOf]

theorem newIndex_none (r : ResultRow) : newIndex none r = tableOf [r] := by
  simp [newIndex, tableOf]

/-! ### What a file says -/

/-- The file records the pair as complete. -/
def Says (t : Option Text) (task : ℕ) : Prop :=
  ∃ text done, t = some text ∧ doneTasks text = some done ∧ (task : ℤ) ∈ done

theorem not_says_none (task : ℕ) : ¬ Says none task := by
  rintro ⟨text, done, h, -⟩
  cases h

theorem isComplete_row (r : ResultRow) :
    isComplete (Csv.dictRow resultColumns r.fields) = some r.complete := by
  have hget : (Csv.dictRow resultColumns r.fields).get? "complete".toList =
      some (some (completeText r.complete)) := by
    unfold resultColumns ResultRow.fields
    rw [Csv.get?_dictRow_of_ne (by decide), Csv.get?_dictRow_self (by decide)]
  unfold isComplete
  rw [hget]
  cases r.complete <;> decide

theorem taskId_row (r : ResultRow) :
    taskId (Csv.dictRow resultColumns r.fields) = some (r.taskId : ℤ) := by
  have hget : (Csv.dictRow resultColumns r.fields).get? "task_id".toList =
      some (some (decimal r.taskId)) := by
    unfold resultColumns ResultRow.fields
    rw [Csv.get?_dictRow_self (by decide)]
  unfold taskId field
  rw [hget]
  exact toInt_decimal r.taskId

theorem doneIn_rows (rows : List ResultRow) :
    doneIn (rows.map fun r => Csv.dictRow resultColumns r.fields) =
      some ((rows.filter ResultRow.complete).map fun r => (r.taskId : ℤ)) := by
  induction rows with
  | nil => rfl
  | cons r rows ih =>
    rw [List.map_cons, doneIn, isComplete_row, ih]
    cases hc : r.complete with
    | true => simp [taskId_row, hc]
    | false => simp [hc]

theorem doneTasks_tableOf (rows : List ResultRow) :
    doneTasks (tableOf rows) =
      some ((rows.filter ResultRow.complete).map fun r => (r.taskId : ℤ)) := by
  have hread : Csv.dictReader (tableOf rows) =
      some (rows.map fun r => Csv.dictRow resultColumns r.fields) := by
    have h := @Csv.dictReader_rows resultColumns (rows.map ResultRow.fields) (by decide)
      fun fs hfs => by
        obtain ⟨r, -, rfl⟩ := List.mem_map.1 hfs
        exact List.cons_ne_nil _ _
    rw [List.flatMap_map, List.map_map] at h
    simp only [tableOf, csvRow_eq_row]
    exact h
  rw [doneTasks, hread]
  exact doneIn_rows rows

theorem says_tableOf (rows : List ResultRow) (task : ℕ) :
    Says (some (tableOf rows)) task ↔ ∃ r ∈ rows, r.taskId = task ∧ r.complete = true := by
  constructor
  · rintro ⟨text, done, htext, hdone, hmem⟩
    cases htext
    rw [doneTasks_tableOf] at hdone
    cases hdone
    obtain ⟨r, hr, heq⟩ := List.mem_map.1 hmem
    obtain ⟨hr, hc⟩ := List.mem_filter.1 hr
    exact ⟨r, hr, Nat.cast_injective heq, hc⟩
  · rintro ⟨r, hr, rfl, hc⟩
    exact ⟨_, _, rfl, doneTasks_tableOf rows, List.mem_map.2 ⟨r, List.mem_filter.2 ⟨hr, hc⟩, rfl⟩⟩

theorem says_resultFile (r : ResultRow) (task : ℕ) :
    Says (some (resultFile r)) task ↔ r.taskId = task ∧ r.complete = true := by
  rw [resultFile, says_tableOf]
  simp

end Batch
end Slurmy
